import BackupHelper.Archive.Manifest
import BackupHelper.Lib.Prog
import Mathlib.Logic.Function.Basic

/-!
# Uploads to an S3 store

`put` sends a file to the store in one call, or in parts of one size if it is not below a threshold, and
then compares the sizes.  Every call is tried up to five times.  A client call may fail under any fault; then it
has no effect on the store.

* `Call`, `Store`, `serve`    the client calls, the store, and what a call does to it;
* `step`                      a call under a fault, noted in the log;
* `callWithRetry`             a call that is tried again;
* `put`                       the upload.
-/

namespace BackupHelper
namespace S3Upload
open Text Effects

/-- an exception; `sleeps` says whether the time that its `retry_after` asks for is one to sleep -/
structure Err where
  text : Str
  sleeps : Bool
deriving DecidableEq

/-- a bucket and a key in it -/
abbrev Place := Str × Str

/-- an entry of the list that completes an upload -/
structure Part (E : Type) where
  etag : E
  number : ℕ
deriving DecidableEq

/-- the calls of the client, with tags of type `E` -/
inductive Call (E : Type) where
  | putObject (p : Place) (body : Bytes)
  | headObject (p : Place)
  | createMultipartUpload (p : Place)
  | uploadPart (p : Place) (id number : ℕ) (body : Bytes)
  | completeMultipartUpload (p : Place) (id : ℕ) (parts : List (Part E))
  | abortMultipartUpload (p : Place) (id : ℕ)
deriving DecidableEq

/-- what a call returns: a length, an upload id, the tag of a part -/
def Ret {E : Type} : Call E → Type
  | .headObject _ => ℕ
  | .createMultipartUpload _ => ℕ
  | .uploadPart _ _ _ _ => E
  | _ => Unit

def Res {E : Type} (c : Call E) : Type := Except Err (Ret c)

/-- an upload in parts that is not completed -/
structure Upload where
  place : Place
  parts : ℕ → Option Bytes

/-- the store: its objects, the open uploads, the id of the next one; and the calls so far, with whether
they succeeded -/
structure Store (E : Type) where
  objects : Place → Option Bytes
  uploads : ℕ → Option Upload
  next : ℕ
  log : List (Call E × Bool)

def Store.setObject {E : Type} (s : Store E) (p : Place) (body : Bytes) : Store E :=
  { s with objects := Function.update s.objects p (some body) }

def Store.setUpload {E : Type} (s : Store E) (id : ℕ) (u : Option Upload) : Store E :=
  { s with uploads := Function.update s.uploads id u }

/-- more calls in the log -/
def Store.logged {E : Type} (s : Store E) (l : List (Call E × Bool)) : Store E := { s with log := s.log ++ l }

section
variable {E : Type} [DecidableEq E] (etag : ℕ → ℕ → Bytes → E)

/-- the object that the listed parts make: their numbers go up, and each is there with its tag -/
def assemble (id : ℕ) (stored : ℕ → Option Bytes) : ℕ → List (Part E) → Option Bytes
  | _, [] => some []
  | last, q :: parts =>
    if last < q.number then
      match stored q.number with
      | some body =>
        if etag id q.number body = q.etag then (assemble id stored q.number parts).map (body ++ ·) else none
      | none => none
    else none

def noSuchKey : Err := ⟨"404".toList, true⟩

def noSuchUpload : Err := ⟨"NoSuchUpload".toList, true⟩

def invalidPart : Err := ⟨"InvalidPart".toList, true⟩

def malformedXml : Err := ⟨"MalformedXML".toList, true⟩

/-- the object of an upload that is completed; there is a part at least -/
def complete (id : ℕ) (stored : ℕ → Option Bytes) (parts : List (Part E)) : Except Err Bytes :=
  if parts.isEmpty then .error malformedXml
  else match assemble etag id stored 0 parts with
    | some body => .ok body
    | none => .error invalidPart

/-- what the store makes of a call that reaches it -/
def serve : (c : Call E) → Store E → Except Err (Ret c) × Store E
  | .putObject p body, s => (.ok (), s.setObject p body)
  | .headObject p, s =>
    match s.objects p with
    | some body => (.ok body.length, s)
    | none => (.error noSuchKey, s)
  | .createMultipartUpload p, s =>
    (.ok s.next, { s.setUpload s.next (some ⟨p, fun _ => none⟩) with next := s.next + 1 })
  | .uploadPart p id number body, s =>
    match s.uploads id with
    | some u =>
      if u.place = p then
        (.ok (etag id number body), s.setUpload id (some ⟨p, Function.update u.parts number (some body)⟩))
      else (.error noSuchUpload, s)
    | none => (.error noSuchUpload, s)
  | .completeMultipartUpload p id parts, s =>
    match s.uploads id with
    | some u =>
      if u.place = p then
        match complete etag id u.parts parts with
        | .ok body => (.ok (), (s.setObject p body).setUpload id none)
        | .error e => (.error e, s)
      else (.error noSuchUpload, s)
    | none => (.error noSuchUpload, s)
  | .abortMultipartUpload _ id, s =>
    match s.uploads id with
    | some _ => (.ok (), s.setUpload id none)
    | none => (.error noSuchUpload, s)

/-- a call that fails before the store sees it, or does not -/
def step (c : Call E) : Option Err → Store E → Res c × Store E
  | some e, s => (.error e, s.logged [(c, false)])
  | none, s => ((serve etag c s).1, (serve etag c s).2.logged [(c, (serve etag c s).1.isOk)])

end

/-! ## the upload -/

section
variable {E : Type} {α β : Type}

/-- what follows, unless an exception is raised -/
def andThen (p : Prog (Call E) Res (Except Err α)) (k : α → Prog (Call E) Res (Except Err β)) :
    Prog (Call E) Res (Except Err β) :=
  p >>= fun
    | .ok a => k a
    | .error e => pure (.error e)

/-- up to `n` more attempts -/
def retrying (fn : Prog (Call E) Res (Except Err α)) : ℕ → Prog (Call E) Res (Except Err α)
  | 0 => fn
  | n + 1 => fn >>= fun
    | .ok a => pure (.ok a)
    | .error e => if e.sleeps then retrying fn n else pure (.error e)

/-- `call_with_retry`, with its five attempts -/
def callWithRetry (fn : Prog (Call E) Res (Except Err α)) : Prog (Call E) Res (Except Err α) := retrying fn 4

structure S3DestinationConfig where
  bucket : Str
  prefix_ : Str
  multipartThreshold : ℤ
  multipartChunkSize : ℤ

def S3DestinationConfig.place (cfg : S3DestinationConfig) (key : Str) : Place := (cfg.bucket, cfg.prefix_ ++ key)

def sizeMismatch : Err := ⟨"upload size mismatch".toList, true⟩

/-- a client call, tried up to five times -/
def client (c : Call E) : Prog (Call E) Res (Except Err (Ret c)) := callWithRetry (Prog.perform c)

def verifySize (p : Place) (size : ℕ) : Prog (Call E) Res (Except Err Unit) :=
  andThen (client (.headObject p)) fun (remote : ℕ) =>
    pure (if remote ≠ size then .error sizeMismatch else .ok ())

def putSingle (p : Place) (body : Bytes) : Prog (Call E) Res (Except Err Unit) :=
  andThen (client (.putObject p body)) fun _ => verifySize p body.length

/-- `fh.read(n)` where `rest` is left -/
def read (n : ℤ) (rest : Bytes) : Bytes := if n < 0 then rest else rest.take n.toNat

/-- the loop over the parts: every pass takes a byte at least, so `fuel` is the length of `rest` -/
def uploadParts (chunkSize : ℤ) (p : Place) (id : ℕ) :
    ℕ → Bytes → ℕ → List (Part E) → Prog (Call E) Res (Except Err (List (Part E)))
  | 0, _, _, parts => pure (.ok parts)
  | fuel + 1, rest, number, parts =>
    let chunk := read chunkSize rest
    if chunk.isEmpty then pure (.ok parts)
    else
      andThen (client (.uploadPart p id number chunk)) fun (tag : E) =>
        uploadParts chunkSize p id fuel (rest.drop chunk.length) (number + 1) (parts ++ [⟨tag, number⟩])

def putMultipart (chunkSize : ℤ) (p : Place) (data : Bytes) : Prog (Call E) Res (Except Err Unit) :=
  andThen (client (.createMultipartUpload p)) fun (id : ℕ) => do
    let r ← andThen (uploadParts chunkSize p id data.length data 1 []) fun parts =>
      client (.completeMultipartUpload p id parts)
    match r with
    | .ok _ => verifySize p data.length
    | .error e =>
      -- the abort is best effort
      let _ ← Prog.perform (.abortMultipartUpload p id)
      pure (.error e)

def put (cfg : S3DestinationConfig) (data : Bytes) (key : Str) : Prog (Call E) Res (Except Err Unit) :=
  if data.length < cfg.multipartThreshold then putSingle (cfg.place key) data
  else putMultipart cfg.multipartChunkSize (cfg.place key) data

end
end S3Upload
end BackupHelper
