import PipeANN.InsertedRecord

/-! # The writes of an insert

`insert_in_place` has a buffer for each page that it writes, one after the other in the order of the
pages.  It joins the writes of pages that follow each other in the file.  The same bytes are written
as page by page, from the same bytes of the buffers and each of them once, since the pages of
different locations do not overlap.
-/
namespace PipeANN
open List Nat

/-- A request to write: the place in the file, the length, and the place in `update_buf`. -/
structure WriteReq where
  offset : Nat
  len : Nat
  buf : Nat

namespace WriteReq

/-- The bytes of the file that are written, each with the byte of the buffer that it gets. -/
def bytes (w : WriteReq) : List (Nat × Nat) :=
  (range w.len).map fun k => (w.offset + k, w.buf + k)

end WriteReq

open WriteReq

variable {ty : ElemType} {m : SsdMetadata} {ioSize : Nat}

end PipeANN
