import OndaDb.Catalog.Codec

namespace OndaDb.Catalog

open Encoding Reader

-- No writer comes near a length that a number of 64 bits cannot hold.
abbrev Decodes (r : Decoder α) (b : Bytes) (a : α) : Prop :=
  Reads (2 ^ 64) r b a

section

variable {e : Errs}

theorem reads_take (b : Bytes) : Decodes (take e b.length) b b := by
  intro _ rest
  simp [take]

theorem reads_word (n x : Nat) : Decodes (word e n) (putLe n x) (x % 256 ^ n) := by
  rw [← readLe_putLe]
  apply Reads.map
  have h := reads_take (e := e) (putLe n x)
  rwa [length_putLe] at h

theorem reads_u64le (x : UInt64) : Decodes (u64le e) (putU64Word x) x := by
  have h := (reads_word (e := e) 8 x.toNat).map (UInt64.ofNat ·)
  rwa [show 256 ^ 8 = 2 ^ 64 from rfl, Nat.mod_eq_of_lt x.toNat_lt, UInt64.ofNat_toNat] at h

theorem reads_u32le (x : UInt32) : Decodes (u32le e) (putU32 x.toNat) x := by
  have h := (reads_word (e := e) 4 x.toNat).map (UInt32.ofNat ·)
  rwa [show 256 ^ 4 = 2 ^ 32 from rfl, Nat.mod_eq_of_lt x.toNat_lt, UInt32.ofNat_toNat] at h

theorem reads_uvarint (h : n < 2 ^ 64) : Decodes (uvar e) (appendUvarint n) (UInt64.ofNat n) := by
  intro _ rest
  simp [uvar, uvarint_append h]

theorem reads_uvar (x : UInt64) : Decodes (uvar e) (appendU64Var x) x := by
  have h := reads_uvarint (e := e) x.toNat_lt
  rwa [UInt64.ofNat_toNat] at h

theorem reads_signed (x : Int64) : Decodes (signed e) (appendSigned x) x := by
  intro _ rest
  simp [signed, appendSigned, varint_append x.le_toInt x.toInt_lt]

theorem reads_u32FromUvar (tooBig : UInt64 → OndaError) (x : UInt32) :
    Decodes (u32FromUvar e tooBig) (appendU32Var x) x := by
  have hlt : x.toNat < 2 ^ 64 := x.toNat_lt.trans (by decide)
  have hn : (UInt64.ofNat x.toNat).toNat = x.toNat := UInt64.toNat_ofNat_of_lt' hlt
  apply (reads_uvarint hlt).last
  rw [if_pos (hn.trans_lt x.toNat_lt)]
  congr 1
  apply UInt32.toNat_inj.mp
  rw [UInt64.toNat_toUInt32, hn]
  exact Nat.mod_eq_of_lt x.toNat_lt

theorem reads_byte (x : UInt8) : Decodes (byte e) [x] x :=
  (reads_take [x]).last rfl

theorem reads_counted (hn : n ≤ b.length) (h : ∀ c : UInt64, c.toNat = n → Decodes (f c) b a) :
    Decodes (uvar e >>= f) (appendUvarint n ++ b) a := by
  intro hlen
  have hlt : n < 2 ^ 64 := by
    rw [List.length_append] at hlen
    omega
  exact (reads_uvarint hlt).bind (h _ (UInt64.toNat_ofNat_of_lt' hlt)) hlen

theorem reads_bytes (b : Bytes) : Decodes (bytes e) (appendBytes b) b := by
  apply reads_counted le_rfl
  rintro c hc
  rw [hc]
  exact reads_take b

theorem fromUTF8_utf8 (s : String) : String.fromUTF8? ⟨(utf8 s).toArray⟩ = some s := by
  have h : (⟨(utf8 s).toArray⟩ : ByteArray) = s.toByteArray := by simp [utf8, String.toUTF8]
  rw [h, String.fromUTF8?, dif_pos s.isValidUTF8]
  rfl

theorem reads_string (s : String) : Decodes (string e) (appendString s) s := by
  apply (reads_bytes _).last
  simp [fromUTF8_utf8]

theorem reads_optional {r : Decoder α} {enc : α → Bytes} (h : ∀ a, Decodes r (enc a) a) (o : Option α) :
    Decodes (optional e tag r) (appendOpt enc o) o := by
  cases o
  case none => exact (reads_byte 0).last rfl
  case some a => exact (reads_byte 1).bind ((h a).map some)

theorem reads_many {α β γ : Type} {r : Nat → Decoder β} {enc : α → Bytes} {g : α → β} {as : List α}
    (hpos : ∀ a ∈ as, 1 ≤ (enc a).length) (h : ∀ i, ∀ a ∈ as, Decodes (r i) (enc a) (g a))
    {f : List β → Decoder γ} {x : γ} (hf : f (as.map g) = pure x) :
    Decodes (do let c ← uvar e; let bs ← many r 0 c.toNat; f bs)
      (appendUvarint as.length ++ as.flatMap enc) x := by
  apply reads_counted (length_le_length_flatMap hpos)
  rintro c hc
  rw [hc]
  exact (Reads.many 0 h).last hf

end

section

variable {i : Nat}

theorem reads_optString (o : Option String) : Decodes (Cur.optString i) (appendOpt appendString o) o :=
  reads_optional reads_string o

theorem reads_optBytes (o : Option Bytes) : Decodes (Cur.optBytes i) (appendOpt appendBytes o) o :=
  reads_optional reads_bytes o

theorem reads_optVarint (o : Option Int64) : Decodes (Cur.optVarint i) (appendOpt appendSigned o) o :=
  reads_optional reads_signed o

def SstMeta.logged (t : SstMeta) : SstMeta :=
  { t with tableCaps := none }

theorem reads_sstMeta (t : SstMeta) : Decodes (Cur.sstMeta i) (appendSstMeta t) t.logged :=
  (reads_uvar _).bind <| (reads_u32FromUvar _ _).bind <| (reads_uvar _).bind <| (reads_uvar _).bind <|
    (reads_uvar _).bind <| (reads_uvar _).bind <| (reads_uvar _).bind <| (reads_bytes _).bind <|
    (reads_bytes _).bind <| (reads_optString _).bind <| (reads_optString _).bind <|
    (reads_optVarint _).bind <| (reads_optString _).bind <| (reads_optVarint _).bind <|
    (reads_uvar _).bind <| (reads_uvar _).bind <| (reads_uvar _).bind <| (reads_optBytes _).bind <|
    (reads_optBytes _).last rfl

theorem one_le_length_appendUvarint (n : Nat) : 1 ≤ (appendUvarint n).length := by
  rw [appendUvarint]
  split <;> simp

theorem reads_masked (h : ∀ a, Decodes r (enc a) a) (hm : m &&& bit ≠ 0 ↔ o.isSome) :
    Decodes (Cur.masked m bit r) (o.elim [] enc) o := by
  rw [Cur.masked]
  cases o
  case none =>
    rw [if_neg (by simpa using hm)]
    exact Reads.pure none
  case some a =>
    rw [if_pos (hm.mpr rfl)]
    exact (h a).map some

namespace TableUpdate

theorem mask_bits (u : TableUpdate) :
    (u.mask &&& 0x01 ≠ 0 ↔ u.level.isSome) ∧ (u.mask &&& 0x02 ≠ 0 ↔ u.tier.isSome) ∧
    (u.mask &&& 0x04 ≠ 0 ↔ u.object.isSome) ∧ (u.mask &&& 0x08 ≠ 0 ↔ u.partition.isSome) ∧
    (u.mask &&& 0x10 ≠ 0 ↔ u.maxEntryTime.isSome) ∧ (u.mask &&& 0x20 ≠ 0 ↔ u.lastCompactionTime.isSome) ∧
    u.mask &&& ~~~0x3F = 0 := by
  rw [mask]
  generalize u.level.isSome = a
  generalize u.tier.isSome = b
  generalize u.object.isSome = c
  generalize u.partition.isSome = d
  generalize u.maxEntryTime.isSome = e
  generalize u.lastCompactionTime.isSome = f
  revert a b c d e f
  decide

end TableUpdate

theorem reads_tableUpdate (u : TableUpdate) : Decodes (Cur.tableUpdate i u.mask) u.append u := by
  obtain ⟨hl, ht, ho, hp, hm, hc, -⟩ := u.mask_bits
  exact (reads_masked (reads_u32FromUvar _) hl).bind <| (reads_masked reads_optString ht).bind <|
    (reads_masked reads_optString ho).bind <| (reads_masked reads_optString hp).bind <|
    (reads_masked reads_optVarint hm).bind <| (reads_masked reads_optVarint hc).last rfl

def Op.logged : Op → Op
  | .addTable cf t => .addTable cf t.logged
  | op => op

-- An update that changes nothing is not written.
def Op.Sayable : Op → Prop
  | .updateTable _ _ u => u.mask ≠ 0
  | _ => True

theorem reads_op {op : Op} (h : op.Sayable) : Decodes (Cur.op i) op.encode op.logged := by
  have hcode : op.code < 2 ^ 64 := by cases op <;> simp [Op.code]
  apply (reads_uvarint hcode).bind
  rw [UInt64.toNat_ofNat_of_lt' hcode]
  cases op
  case addTable cf t => exact (reads_string _).bind <| (reads_sstMeta _).last rfl
  case removeTable cf id l =>
    exact (reads_string _).bind <| (reads_uvar _).bind <| (reads_u32FromUvar _ _).last rfl
  case updateTable cf id u =>
    apply (reads_string _).bind
    apply (reads_uvar _).bind
    apply (reads_uvar _).bind
    rw [if_neg (not_or.mpr ⟨h, not_not.mpr u.mask_bits.2.2.2.2.2.2⟩)]
    exact (reads_tableUpdate u).last rfl
  case createCf name config => exact (reads_string _).bind <| (reads_bytes _).last rfl
  case dropCf name => exact (reads_string _).last rfl
  case setCfConfig name b => exact (reads_string _).bind <| (reads_bytes _).last rfl
  case setNextFileId v => exact (reads_uvar _).last rfl
  case setGlobalSeq v => exact (reads_uvar _).last rfl
  case setWalLayout layout => cases layout <;> exact (reads_byte _).last rfl
  case setNonce nonce => exact (reads_u64le _).last rfl
  case setCapability bits => exact (reads_u64le _).last rfl
  case removeTables cf ids =>
    apply (reads_string _).bind
    exact reads_many (fun _ _ => one_le_length_appendUvarint _) (fun _ x _ => reads_uvar x) (by rw [List.map_id']; rfl)
  case setCfUnifiedId name id => exact (reads_string _).bind <| (reads_u64le _).last rfl
  case setWalFloor generation => exact (reads_uvar _).last rfl

end

def VersionEdit.logged (edit : VersionEdit) : VersionEdit :=
  ⟨edit.ops.map Op.logged⟩

def VersionEdit.Sayable (edit : VersionEdit) : Prop :=
  ∀ op ∈ edit.ops, op.Sayable

theorem one_le_length_encode (op : Op) : 1 ≤ op.encode.length := by
  rw [Op.encode, List.length_append]
  exact (one_le_length_appendUvarint _).trans (Nat.le_add_right ..)

theorem decodePayload_encodePayload {id : UInt64} {edit : VersionEdit} (h : edit.Sayable)
    (hlen : (encodePayload id edit).length < 2 ^ 64) :
    decodePayload (encodePayload id edit) = .ok (id, edit.logged) := by
  have hread : Decodes Cur.payload (encodePayload id edit) (id, edit.logged.ops) :=
    (reads_u64le _).bind <|
      reads_many (fun op _ => one_le_length_encode op) (fun _ op hop => reads_op (h op hop)) rfl
  rw [decodePayload, hread.exact hlen]
  rfl

theorem readLe_putU32 (x : UInt32) : readLe (putU32 x.toNat) = x.toNat := by
  rw [putU32, readLe_putLe]
  exact Nat.mod_eq_of_lt x.toNat_lt

end OndaDb.Catalog
