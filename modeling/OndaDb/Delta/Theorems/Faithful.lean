import OndaDb.Delta.Theorems.Runs

namespace OndaDb.Delta

open Encoding List

section writer

variable {b : Builder} {l : List Entry} {n : Nat}

end writer

section faithful

variable {bytewise : Bool} {es : List Entry} {ps : List Bytes}

variable {runs : List (List Slot)}

end faithful

end OndaDb.Delta
