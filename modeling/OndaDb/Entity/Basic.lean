import OndaDb.Wal.Checked

-- Entity frames: named columns in one value.
namespace OndaDb.Entity

open Encoding Wal.Checked

structure EntityColumn where
  name : Bytes
  value : Bytes
  deriving DecidableEq

def maxEntityColumns : Nat := 4096
def maxEntityNameLen : Nat := 4096
def maxEntityBytes : Nat := 64 * 2 ^ 20

def magic : Bytes := [0x57, 0x56, 0x45, 0x31]
def fixedHeader : Nat := 14
def minFrame : Nat := fixedHeader + 4
def minDirEntry : Nat := 4 + 1 + 4 + 1
def maxVarint : Nat := 5
def linearScanMax : Nat := 32

def uvarintLen (x : Nat) : Nat :=
  if x < 0x80 then 1 else uvarintLen (x >>> 7) + 1
termination_by x
decreasing_by simp only [Nat.shiftRight_eq_div_pow]; omega

-- `{:#0width$x}`
def hex (width n : Nat) : String :=
  let digits := String.ofList (Nat.toDigits 16 n)
  "0x" ++ String.ofList (List.replicate (width - 2 - digits.length) '0') ++ digits

def dupMessage (i j : Nat) : String :=
  s!"entity column {i} duplicates the name of column {j}"

def nameHash (b : Bytes) : UInt64 :=
  b.foldl (fun h c => (h ^^^ c.toUInt64) * 0x100000001b3) 0xcbf29ce484222325

-- Looks for a free slot from `h` on, or for a column of the same name; slots hold index + 1.
def probe (names : List Bytes) (mask i : Nat) (name : Bytes) (table : List Nat) :
    Nat → Nat → Result (List Nat ⊕ Nat × Nat)
  | 0, _ => .error .hang
  | rounds + 1, h =>
    match table[h]? with
    | none => .error .panic
    | some 0 => .ok (.inl (table.set h (i + 1)))
    | some (j + 1) =>
      match names[j]? with
      | none => .error .panic
      | some other =>
        if other = name then .ok (.inr (i, j)) else probe names mask i name table rounds ((h + 1) &&& mask)

def fill (names : List Bytes) (mask : Nat) : Nat → List Nat → List Bytes → Result (Option (Nat × Nat))
  | _, _, [] => .ok none
  | i, table, name :: others => do
    match ← probe names mask i name table table.length ((nameHash name).toNat &&& mask) with
    | .inl table => fill names mask (i + 1) table others
    | .inr pair => .ok (some pair)

-- `(2 * len).next_power_of_two().max(64)`
def tableSize (len : Nat) : Nat :=
  max (2 ^ Nat.clog 2 (2 * len)) 64

def findDuplicate (names : List Bytes) : Result (Option (Nat × Nat)) :=
  if names.length ≤ linearScanMax then
    .ok ((List.range names.length).findSome? fun i => (List.range i).findSome? fun j =>
      if names[i]? = names[j]? then some (i, j) else none)
  else
    let size := tableSize names.length
    fill names (size - 1) 0 (List.replicate size 0) names

def columnSize (c : EntityColumn) : Nat :=
  4 + uvarintLen c.name.length + 4 + uvarintLen c.value.length + (c.name.length + c.value.length)

def checkColumns (i total : Nat) : List EntityColumn → Except OndaError Nat
  | [] => .ok total
  | c :: cols =>
    let n := c.name.length
    if n = 0 then .error (.invalidArgs s!"entity column {i} has an empty name")
    else if n > maxEntityNameLen then
      .error (.invalidArgs s!"entity column {i} name is {n} bytes, limit is {maxEntityNameLen}")
    else if total + columnSize c > maxEntityBytes then
      .error (.tooLarge s!"entity frame exceeds {maxEntityBytes} bytes")
    else checkColumns (i + 1) (total + columnSize c) cols

def directory (payLen : Nat) : List EntityColumn → Bytes
  | [] => []
  | c :: cols =>
    putU32 payLen ++ appendUvarint c.name.length ++ putU32 (payLen + c.name.length) ++
      appendUvarint c.value.length ++ directory (payLen + c.name.length + c.value.length) cols

def payload (cols : List EntityColumn) : Bytes :=
  cols.flatMap fun c => c.name ++ c.value

section

variable (checksum : Bytes → UInt32)

def sealed (body : Bytes) : Bytes :=
  body ++ putU32 (checksum body).toNat

def header (headerLen count : Nat) : Bytes :=
  magic ++ [1, 0] ++ putU32 headerLen ++ putU32 count

def encodeEntity (cols : List EntityColumn) : Result Bytes := do
  let n := cols.length
  if n > maxEntityColumns then
    .error (.error (.invalidArgs s!"entity has {n} columns, limit is {maxEntityColumns}"))
  else
    let _ ← lift (checkColumns 0 minFrame cols)
    match ← findDuplicate (cols.map EntityColumn.name) with
    | some (i, j) => .error (.error (.invalidArgs (dupMessage i j)))
    | none =>
      let dir := directory 0 cols
      .ok (sealed checksum (header (fixedHeader + dir.length) n ++ dir ++ payload cols))

def boundedVarintFrom (x shift i : Nat) : Bytes → Option (Nat × Nat)
  | [] => none
  | c :: b =>
    if i = maxVarint then none
    else
      let x := x ||| (c &&& 0x7f).toNat <<< shift
      if c < 0x80 then if x ≤ 0xFFFFFFFF then some (x, i + 1) else none
      else boundedVarintFrom x (shift + 7) (i + 1) b

def boundedVarint (b : Bytes) : Option (Nat × Nat) :=
  boundedVarintFrom 0 0 0 b

structure DirEntry where
  nameOff : Nat
  nameLen : Nat
  valOff : Nat
  valLen : Nat

def region (dir : Bytes) (pos : Nat) : Result (Option (Nat × Nat × Nat)) :=
  if pos + 4 ≤ dir.length then do
    let rest ← sliceFrom dir (pos + 4)
    .ok ((boundedVarint rest).map fun v => (readLe ((dir.drop pos).take 4), v.1, pos + 4 + v.2))
  else .ok none

def dirEntry (dir : Bytes) (pos : Nat) : Result (Option (DirEntry × Nat)) := do
  match ← region dir pos with
  | none => .ok none
  | some (nameOff, nameLen, pos) =>
    match ← region dir pos with
    | none => .ok none
    | some (valOff, valLen, pos) => .ok (some (⟨nameOff, nameLen, valOff, valLen⟩, pos))

def notEntity (text : String) : Stop :=
  .error (.notEntity text)

def validate (dir : Bytes) (payLen i cursor pos : Nat) : Nat → Result (Nat × Nat)
  | 0 => .ok (cursor, pos)
  | count + 1 => do
    match ← dirEntry dir pos with
    | none => .error (notEntity s!"directory entry {i} is malformed")
    | some (e, pos) =>
      let nameOff := e.nameOff
      let nameLen := e.nameLen
      let valOff := e.valOff
      let valLen := e.valLen
      if nameLen = 0 ∨ nameLen > maxEntityNameLen then
        .error (notEntity s!"name length {nameLen} at column {i}")
      else if nameOff ≠ cursor ∨ nameOff + nameLen > payLen then
        .error (notEntity s!"name region [{nameOff},+{nameLen}) at column {i}")
      else if valOff ≠ nameOff + nameLen ∨ valOff + valLen > payLen then
        .error (notEntity s!"value region [{valOff},+{valLen}) at column {i}")
      else validate dir payLen (i + 1) (valOff + valLen) pos count

def collect (dir payload : Bytes) (dst : List EntityColumn) (pos : Nat) : Nat → Result (List EntityColumn)
  | 0 => .ok dst
  | count + 1 => do
    match ← dirEntry dir pos with
    | none => .error .panic
    | some (e, pos) =>
      let name ← slice payload e.nameOff (e.nameOff + e.nameLen)
      let value ← slice payload e.valOff (e.valOff + e.valLen)
      collect dir payload (dst ++ [⟨name, value⟩]) pos count

structure Layout where
  dir : Bytes
  payload : Bytes
  count : Nat

def layout (value : Bytes) : Result Layout := do
  let n := value.length
  if ¬ (minFrame ≤ n ∧ n ≤ maxEntityBytes) then .error (notEntity s!"frame length {n}")
  else
    if (← slice value 0 4) ≠ magic then .error (notEntity "bad magic")
    else
      let version := (← slice value 4 5).headI.toNat
      let flags := (← slice value 5 6).headI.toNat
      if version ≠ 1 then .error (notEntity s!"version {version}")
      else if flags ≠ 0 then .error (notEntity ("flags " ++ hex 4 flags))
      else
        let headerLen := readLe (← slice value 6 10)
        let count := readLe (← slice value 10 14)
        if headerLen < fixedHeader ∨ headerLen > n - 4 then
          .error (notEntity s!"header length {headerLen} in frame of {n} bytes")
        else if count > maxEntityColumns then
          .error (notEntity s!"column count {count} exceeds limit {maxEntityColumns}")
        else
          let dirLen := headerLen - fixedHeader
          if count * minDirEntry > dirLen then
            .error (notEntity s!"column count {count} does not fit a {dirLen}-byte directory")
          else
            let dir ← slice value fixedHeader headerLen
            let payload ← slice value headerLen (n - 4)
            let (cursor, pos) ← validate dir payload.length 0 0 0 count
            let trailing := dir.length - pos
            let uncovered := payload.length - cursor
            if pos ≠ dir.length then .error (notEntity s!"directory has {trailing} trailing bytes")
            else if cursor ≠ payload.length then
              .error (notEntity s!"payload has {uncovered} bytes not covered by any column")
            else .ok ⟨dir, payload, count⟩

def decodeEntityInto (dst : List EntityColumn) (value : Bytes) : Result Unit × List EntityColumn :=
  match layout value with
  | .error e => (.error e, dst)
  | .ok l =>
    match collect l.dir l.payload dst 0 l.count with
    | .error e => (.error e, dst)
    | .ok grown =>
      match findDuplicate ((grown.drop dst.length).map EntityColumn.name) with
      | .error e => (.error e, grown)
      | .ok (some (i, j)) => (.error (notEntity (dupMessage i j)), grown.take dst.length)
      | .ok none =>
        let n := value.length
        match sliceFrom value (n - 4), slice value 0 (n - 4) with
        | .error e, _ => (.error e, grown)
        | _, .error e => (.error e, grown)
        | .ok tail, .ok body =>
          let stored := readLe tail
          let computed := (checksum body).toNat
          if stored ≠ computed then
            (.error (.error (.corruption ("entity checksum mismatch (stored " ++ hex 10 stored ++ ", computed " ++
              hex 10 computed ++ ")"))), grown.take dst.length)
          else (.ok (), grown)

def decodeEntity (value : Bytes) : Result (List EntityColumn) :=
  match decodeEntityInto checksum [] value with
  | (.ok (), cols) => .ok cols
  | (.error e, _) => .error e

end

end OndaDb.Entity
