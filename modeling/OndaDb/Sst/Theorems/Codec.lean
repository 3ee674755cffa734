import OndaDb.Sst.Index

namespace OndaDb.Sst

open Encoding Reader

abbrev Decodes (r : Decoder α) (b : Bytes) (a : α) : Prop :=
  Reads (2 ^ 64) r b a

theorem appendUvarint_pos (x : Nat) : 1 ≤ (appendUvarint x).length := by
  unfold appendUvarint
  split <;> simp

theorem appendBytes_pos (b : Bytes) : 1 ≤ (appendBytes b).length := by
  have := appendUvarint_pos b.length
  rw [appendBytes, List.length_append]
  omega

theorem appendEntry_pos (e : IndexEntry) : 1 ≤ (appendEntry e).length := by
  have := appendBytes_pos e.userKey
  rw [appendEntry, List.length_append]
  omega

theorem appendChild_pos (c : Child) : 1 ≤ (appendChild c).length := by
  have := appendBytes_pos c.1
  rw [appendChild, List.length_append]
  omega

namespace Decoder

theorem reads_byte (x : UInt8) : Decodes byte [x] x :=
  fun _ _ => rfl

theorem reads_uvarint (h : n < 2 ^ 64) : Decodes uvar (appendUvarint n) n.toUInt64 := by
  intro _ rest
  simp [uvar, uvarint_append h]

theorem reads_uvar (x : UInt64) : Decodes uvar (appendUvarint x.toNat) x := by
  have h := reads_uvarint x.toNat_lt
  rwa [Nat.toUInt64_eq, UInt64.ofNat_toNat] at h

theorem reads_counted (hn : n ≤ b.length) (h : ∀ c : UInt64, c.toNat = n → Decodes (f c) b a) :
    Decodes (uvar >>= f) (appendUvarint n ++ b) a := by
  intro hlen
  have hlt : n < 2 ^ 64 := by
    rw [List.length_append] at hlen
    omega
  exact (reads_uvarint hlt).bind (h _ (UInt64.toNat_ofNat_of_lt' hlt)) hlen

theorem reads_bytes (b : Bytes) : Decodes bytes (appendBytes b) b := by
  apply reads_counted le_rfl
  intro c hc _ rest
  simp [hc]

theorem reads_handle (h : BlockHandle) : Decodes handle (appendHandle h) h :=
  (reads_uvar h.offset).bind ((reads_uvar h.length).last rfl)

theorem reads_entry (e : IndexEntry) : Decodes entry (appendEntry e) e :=
  (reads_bytes e.userKey).bind ((reads_uvar e.seq).bind ((reads_handle e.handle).last rfl))

theorem reads_child (c : Child) : Decodes child (appendChild c) c.2 :=
  (reads_bytes c.1).bind (reads_handle c.2)

theorem reads_entries (es : List IndexEntry) :
    Decodes (many (fun _ => entry) 0 es.length) (es.flatMap appendEntry) es := by
  have h := Reads.many (g := id) 0 fun _ (e : IndexEntry) (_ : e ∈ es) => reads_entry e
  rwa [List.map_id] at h

theorem reads_children (cs : List Child) :
    Decodes (many (fun _ => child) 0 cs.length) (cs.flatMap appendChild) (cs.map Prod.snd) :=
  Reads.many 0 fun _ c _ => reads_child c

theorem reads_withCapacity (h : host.grants (size * c.toNat)) :
    Decodes (withCapacity host size c) [] () := by
  intro _ rest
  simp [withCapacity, Host.request, h]

theorem reads_rootKey (minKey : Option Bytes) :
    Decodes (rootKey minKey.isSome) (minKey.elim [] appendBytes) minKey := by
  cases minKey
  case none => exact Reads.pure none
  case some k => exact (reads_bytes k).map some

section stable

theorem stable_byte : Stable byte := by
  intro b a rest h c
  cases b
  case nil => cases h
  case cons x b' => cases h; rfl

theorem uvarintSlow_stable (h : uvarintSlow x s i b = some (y, rest)) (c : Bytes) :
    uvarintSlow x s i (b ++ c) = some (y, rest ++ c) := by
  induction b generalizing x s i
  case nil => cases h
  case cons z b' ih =>
    rw [List.cons_append]
    unfold uvarintSlow at h ⊢
    split at h
    case isTrue => cases h
    case isFalse hi =>
      rw [if_neg hi]
      split at h
      case isFalse hz =>
        rw [if_neg hz]
        exact ih h
      case isTrue hz =>
        rw [if_pos hz]
        split at h
        case isTrue => cases h
        case isFalse h9 =>
          rw [if_neg h9]
          cases h
          rfl

theorem stable_uvar : Stable uvar := by
  intro b a rest h c
  unfold uvar at h ⊢
  rw [uvarint_eq_slow] at h ⊢
  cases hu : uvarintSlow 0 0 0 b with
  | none => rw [hu] at h; cases h
  | some p =>
    rw [hu] at h
    cases h
    rw [uvarintSlow_stable hu c]

theorem stable_bytes : Stable bytes := by
  apply stable_uvar.bind
  intro n b a rest h c
  dsimp only at h ⊢
  split at h
  case isTrue => cases h
  case isFalse hn =>
    cases h
    have hn := Nat.le_of_not_lt hn
    rw [if_neg (by rw [List.length_append]; omega), List.take_append_of_le_length hn, List.drop_append_of_le_length hn]

theorem stable_handle : Stable handle :=
  stable_uvar.bind fun _ => stable_uvar.bind fun _ => .pure _

theorem stable_entry : Stable entry :=
  stable_bytes.bind fun _ => stable_uvar.bind fun _ => stable_handle.bind fun _ => .pure _

theorem stable_child : Stable child :=
  stable_bytes.bind fun _ => stable_handle

theorem stable_withCapacity : Stable (withCapacity host size n) := by
  intro b a rest h c
  unfold withCapacity Host.request at h ⊢
  split at h
  case isTrue hg =>
    cases h
    rw [if_pos hg]
    rfl
  case isFalse => cases h

theorem stable_rootKey : Stable (rootKey isRoot) := by
  unfold rootKey
  split
  case isTrue => exact stable_bytes.map some
  case isFalse => exact .pure none

end stable

end Decoder

open Decoder

section

variable {host : Host}

theorem nodeHead_stable : Stable (nodeHead isRoot) :=
  stable_byte.bind fun _ => stable_rootKey.bind fun _ => stable_uvar.bind fun _ => .pure _

theorem nodeBody_stable : Stable (host.nodeBody type count) := by
  unfold Host.nodeBody
  split
  case isTrue => exact (Stable.many (fun _ => stable_entry) _ _).map _
  case isFalse => exact stable_withCapacity.bind fun _ => (Stable.many (fun _ => stable_child) _ _).map _

theorem decodeNode_stable : Stable (host.decodeNode isRoot) :=
  nodeHead_stable.bind fun _ => nodeBody_stable.bind fun _ => .pure _

theorem reads_node (minKey : Option Bytes) (hn : n ≤ b.length)
    (h : ∀ c : UInt64, c.toNat = n → Decodes (host.nodeBody type c) b node) :
    Decodes (host.decodeNode minKey.isSome)
      (type :: (minKey.elim [] appendBytes ++ (appendUvarint n ++ b))) (minKey, node) := by
  intro hlen
  have hlt : n < 2 ^ 64 := by
    simp only [List.length_cons, List.length_append] at hlen
    omega
  have hhead : Decodes (nodeHead minKey.isSome) (type :: (minKey.elim [] appendBytes ++ appendUvarint n))
      ⟨type, minKey, n.toUInt64⟩ :=
    (reads_byte type).bind ((reads_rootKey minKey).bind ((reads_uvarint hlt).last rfl))
  have hbody := h n.toUInt64 (UInt64.toNat_ofNat_of_lt' hlt)
  have hnode : Decodes (host.decodeNode minKey.isSome)
      ((type :: (minKey.elim [] appendBytes ++ appendUvarint n)) ++ b) (minKey, node) :=
    hhead.bind (hbody.last rfl)
  rw [List.cons_append, List.append_assoc] at hnode
  exact hnode hlen

theorem reads_leafNode (es : List IndexEntry) :
    Decodes (host.decodeNode false) (leafNode es) (none, .leaf es) := by
  apply reads_node none (length_le_length_flatMap fun e _ => appendEntry_pos e)
  intro c hc
  rw [Host.nodeBody, if_pos rfl, hc]
  exact (reads_entries es).map _

theorem reads_internalNode (minKey : Option Bytes) (hg : host.grants (16 * cs.length)) :
    Decodes (host.decodeNode minKey.isSome) (internalNode minKey cs) (minKey, .internal (cs.map Prod.snd)) := by
  apply reads_node minKey (length_le_length_flatMap fun c _ => appendChild_pos c)
  intro c hc
  rw [Host.nodeBody, if_neg (by decide)]
  refine (reads_withCapacity (hc ▸ hg)).bind ?_
  rw [hc]
  exact (reads_children cs).map _

theorem reads_encodeIndex (hg : host.grants (48 * es.length)) :
    Decodes host.decodeIndex (encodeIndex minKey es) (.of minKey es) := by
  intro hlen
  have hlt : es.length < 2 ^ 64 := by
    have := length_le_length_flatMap fun e (_ : e ∈ es) => appendEntry_pos e
    simp only [encodeIndex, List.length_append] at hlen
    omega
  have hcount : es.length.toUInt64.toNat = es.length := UInt64.toNat_ofNat_of_lt' hlt
  have hhead : Decodes indexHead (appendBytes minKey ++ appendUvarint es.length) ⟨minKey, es.length.toUInt64⟩ :=
    (reads_bytes minKey).bind ((reads_uvarint hlt).last rfl)
  have hentries : Decodes (many (fun _ => entry) 0 es.length.toUInt64.toNat) (es.flatMap appendEntry) es := by
    rw [hcount]
    exact reads_entries es
  have h : Decodes host.decodeIndex ((appendBytes minKey ++ appendUvarint es.length) ++ ([] ++ es.flatMap appendEntry))
      (.of minKey es) :=
    hhead.bind ((reads_withCapacity (by rwa [hcount])).bind (hentries.last rfl))
  rw [List.nil_append, List.append_assoc] at h
  exact h hlen

end

end OndaDb.Sst
