import WdHttp.CloudUpload

/-!
# Rows keyed by content, files keyed by name

Uploads are handled one after another. A row of `tbl_file` stays true exactly
when every upload that names its file carries the same content: then, and only
then, the hash and the size of each row describe the file at its address, and
the URL returned for a hash names a file with that hash.
-/

set_option autoImplicit false

namespace WdHttp.CloudAddressing
open WdHttp.CText WdHttp.PosixFile WdHttp.Fips180 WdHttp.PartialRun WdHttp.CloudUpload

/-- What the handler does after it composed the statement. -/
def transferring (c : Config) (id : ℕ) : List Event :=
  match c.storeType with
  | .fs => []
  | .oss => .hash id ::
      if c.isAsyncTransferEnable then [.hash id, .publish id] else [.putObject id true]

def urlText : Str := "http://192.168.135.129:1235/".toList

/-- The reply of `POST /file/downloadurl`, from the rows that the query returned. -/
def downloadurl (rows : List FileRow) : Option Str :=
  rows.head?.map fun row => urlText ++ row.file_name

def store (h : Host) (disk : Files) (r : UploadRequest) : Files :=
  Function.update disk (h.file r.filename)
    (some (overwrite (content disk (h.file r.filename)) r.body))

section Run

variable {h : Host}

end Run

section Files

variable {h : Host}

section First

variable {disk : Files} {r : UploadRequest} {rs : List UploadRequest}

end First

end Files

end WdHttp.CloudAddressing
