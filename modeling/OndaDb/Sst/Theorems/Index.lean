import Mathlib.Data.List.Forall2
import OndaDb.Sst.Theorems.Codec

namespace OndaDb.Sst

open Encoding Reader

variable {host : Host}

namespace Host

theorem length_frame (host : Host) (p : Bytes) : (host.frame p).length = p.length + 13 := by
  simp [frame, putU32]
  omega

-- What is left of a payload whose length does not fit the header of its block.
def stored (p : Bytes) : Bytes :=
  p.take (p.length % 2 ^ 32)

theorem stored_of_lt (h : p.length < 2 ^ 32) : stored p = p := by
  rw [stored, Nat.mod_eq_of_lt h, List.take_length]

theorem length_stored (p : Bytes) : (stored p).length = p.length % 2 ^ 32 := by
  rw [stored, List.length_take]
  exact Nat.min_eq_left (Nat.mod_le _ _)

theorem blockPayload_frame (p : Bytes) : host.blockPayload (host.frame p) =
    if host.crc (stored p) = host.crc p then .ok (.none, stored p, p.length % 2 ^ 32)
    else .error (.corruption "block: checksum mismatch") := by
  have hlen := host.length_frame p
  have hword (x : Nat) : readLe (putLe 4 x) = x % 2 ^ 32 := readLe_putLe 4 x
  have hdrop (n x : Nat) (hn : 4 ≤ n) : (putLe 4 x).drop n = [] := List.drop_of_length_le (by simp [hn])
  have hcomp : ((host.frame p).drop 1).take 4 = putLe 4 p.length := by simp [frame, putU32]
  have hraw : ((host.frame p).drop 5).take 4 = putLe 4 p.length := by simp [frame, putU32]
  have hcrc : ((host.frame p).drop 9).take 4 = putLe 4 (host.crc p).toNat := by
    simp [frame, putU32, List.drop_append, hdrop]
  have hpay : (host.frame p).drop blockHeader = p := by
    simp [frame, putU32, List.drop_append, hdrop, blockHeader]
  have hmod : p.length % 2 ^ 32 ≤ p.length := Nat.mod_le _ _
  have hst : p.take (p.length % 2 ^ 32) = stored p := rfl
  unfold blockPayload
  simp only [hcomp, hraw, hcrc, hpay, hword, hst, Nat.mod_eq_of_lt (host.crc p).toNat_lt]
  rw [if_neg (by rw [hlen, blockHeader]; omega), if_neg (by rw [hlen, blockHeader]; omega)]
  by_cases hc : host.crc (stored p) = host.crc p
  case pos =>
    rw [if_neg (by simp [hc]), if_pos hc]
    rfl
  case neg => rw [if_pos (by simpa [UInt32.toNat_inj] using hc), if_neg hc]

def Stored (host : Host) (file : Bytes) (h : BlockHandle) (p : Bytes) : Prop :=
  ∃ before after, file = before ++ (host.frame p ++ after) ∧ h.offset.toNat = before.length ∧
    h.length.toNat = (host.frame p).length

theorem Stored.readBlockAt (hs : host.Stored file h p) (hg : host.grants h.length.toNat) :
    host.readBlockAt file h =
      if host.crc (stored p) = host.crc p then .ok (stored p) else .error (corruption "block: checksum mismatch") := by
  obtain ⟨before, after, rfl, hoff, hlen⟩ := hs
  have hread : readExactAt (before ++ (host.frame p ++ after)) h.offset.toNat h.length.toNat = .ok (host.frame p) := by
    simp [readExactAt, hoff, hlen]
  unfold Host.readBlockAt
  rw [hread, request, if_pos hg]
  simp only [bind, Except.bind, blockPayload_frame]
  by_cases hc : host.crc (stored p) = host.crc p
  case pos => simp [hc, Except.mapError, decompressBlock, length_stored, pure, Except.pure]
  case neg => simp [hc, Except.mapError, corruption]

-- A node is read back if its length fits the header of its block, and not otherwise: what is left of it
-- has another checksum, or ends before its last entry.
theorem Stored.readNode_ok (hs : host.Stored file h p) (hg : host.grants h.length.toNat)
    (hd : Decodes (host.decodeNode isRoot) p x) (hp : p.length < 2 ^ 32) : host.readNode file isRoot h = .ok x := by
  rw [readNode, hs.readBlockAt hg, stored_of_lt hp, if_pos rfl]
  simp only [bind, Except.bind]
  rw [hd.exact (hp.trans (by decide))]
  rfl

theorem Stored.readNode_error (hs : host.Stored file h p) (hg : host.grants h.length.toNat)
    (hd : Decodes (host.decodeNode isRoot) p x) (hp : 2 ^ 32 ≤ p.length) (hlt : p.length < 2 ^ 64) :
    ∃ e, host.readNode file isRoot h = .error e := by
  rw [readNode, hs.readBlockAt hg]
  split
  case isFalse => exact ⟨_, rfl⟩
  have hrest : p.drop (p.length % 2 ^ 32) ≠ [] := by
    apply List.ne_nil_of_length_pos
    have := Nat.mod_lt p.length (by decide : 0 < 2 ^ 32)
    rw [List.length_drop]
    omega
  have hshort := decodeNode_stable.not_ok_of_short (hd.exact hlt) (List.take_append_drop _ p) hrest
  simp only [bind, Except.bind]
  cases hc : host.decodeNode isRoot (stored p)
  case error e => exact ⟨e, rfl⟩
  case ok x => exact absurd hc (hshort x)

section walk

variable {r : Loading}

theorem walk_error (h : host.readNode file isRoot b = .error e) :
    host.walkBtreeNode file (d + 1) isRoot b r = throw e := by
  rw [walkBtreeNode, h]
  rfl

theorem walk_leaf (h : host.readNode file isRoot b = .ok (minKey, .leaf es)) :
    host.walkBtreeNode file (d + 1) isRoot b r = pure ⟨minKey.getD r.minKey, r.index ++ es⟩ := by
  rw [walkBtreeNode, h]
  rfl

theorem walk_internal (h : host.readNode file isRoot b = .ok (minKey, .internal cs)) :
    host.walkBtreeNode file (d + 1) isRoot b r =
      cs.foldlM (fun r c => host.walkBtreeNode file d false c r) ⟨minKey.getD r.minKey, r.index⟩ := by
  rw [walkBtreeNode, h]
  rfl

end walk

def Loads (host : Host) (file : Bytes) (isRoot : Bool) (b : BlockHandle) (minKey : Option Bytes)
    (es : List IndexEntry) : Prop :=
  ∃ n, ∀ d ≥ n, ∀ r, host.walkBtreeNode file d isRoot b r = pure ⟨minKey.getD r.minKey, r.index ++ es⟩

def Fails (host : Host) (file : Bytes) (isRoot : Bool) (b : BlockHandle) : Prop :=
  ∃ n, ∀ d ≥ n, ∀ r, ∃ e, host.walkBtreeNode file d isRoot b r = throw e

-- The entries below a node, and whether each node from it on fits its block.
structure Subtree where
  entries : List IndexEntry
  fits : Prop

structure Yields (host : Host) (file : Bytes) (isRoot : Bool) (b : BlockHandle) (minKey : Option Bytes)
    (t : Subtree) : Prop where
  loads : t.fits → host.Loads file isRoot b minKey t.entries
  fails : ¬t.fits → host.Fails file isRoot b

section children

variable {cs : List BlockHandle} {ts : List Subtree}

theorem loads_children (h : List.Forall₂ (host.Yields file false · none) cs ts) (hf : ∀ t ∈ ts, t.fits) :
    ∃ n, ∀ d ≥ n, ∀ r : Loading, cs.foldlM (fun r c => host.walkBtreeNode file d false c r) r =
      pure ⟨r.minKey, r.index ++ ts.flatMap Subtree.entries⟩ := by
  induction h
  case nil => exact ⟨0, fun d _ r => by simp⟩
  case cons c t cs ts hc _ ih =>
    obtain ⟨n, hn⟩ := hc.loads (hf t (List.mem_cons_self ..))
    obtain ⟨m, hm⟩ := ih fun t ht => hf t (List.mem_cons_of_mem _ ht)
    refine ⟨max n m, fun d hd r => ?_⟩
    rw [List.foldlM_cons, hn d ((Nat.le_max_left ..).trans hd), pure_bind, hm d ((Nat.le_max_right ..).trans hd)]
    simp

theorem fails_children (h : List.Forall₂ (host.Yields file false · none) cs ts) (hf : ∃ t ∈ ts, ¬t.fits) :
    ∃ n, ∀ d ≥ n, ∀ r : Loading, ∃ e, cs.foldlM (fun r c => host.walkBtreeNode file d false c r) r = throw e := by
  induction h
  case nil => simp at hf
  case cons c t cs ts hc _ ih =>
    by_cases ht : t.fits
    case neg =>
      obtain ⟨n, hn⟩ := hc.fails ht
      refine ⟨n, fun d hd r => ?_⟩
      obtain ⟨e, he⟩ := hn d hd r
      refine ⟨e, ?_⟩
      rw [List.foldlM_cons, he]
      rfl
    obtain ⟨n, hn⟩ := hc.loads ht
    obtain ⟨m, hm⟩ := ih (by simpa [ht] using hf)
    refine ⟨max n m, fun d hd r => ?_⟩
    rw [List.foldlM_cons, hn d ((Nat.le_max_left ..).trans hd), pure_bind]
    exact hm d ((Nat.le_max_right ..).trans hd) _

end children

theorem Stored.length_le (hs : host.Stored file b p) :
    b.length.toNat ≤ file.length ∧ p.length ≤ file.length := by
  obtain ⟨before, after, rfl, _, hlen⟩ := hs
  rw [hlen, List.length_append, List.length_append, length_frame]
  omega

section nodes

variable {file : Bytes} (hg : ∀ n ≤ 16 * file.length, host.grants n) (hlt : file.length < 2 ^ 64)
include hg hlt

theorem yields_leaf (hs : host.Stored file b (leafNode es)) :
    host.Yields file false b none ⟨es, (leafNode es).length < 2 ^ 32⟩ := by
  obtain ⟨hb, hp⟩ := hs.length_le
  have hgb := hg b.length.toNat (by omega)
  constructor
  case loads =>
    intro hf
    refine ⟨1, fun d hd r => ?_⟩
    obtain ⟨d, rfl⟩ := Nat.exists_eq_add_of_le' hd
    exact walk_leaf (hs.readNode_ok hgb (reads_leafNode es) hf)
  case fails =>
    intro hf
    obtain ⟨e, he⟩ := hs.readNode_error hgb (reads_leafNode es) (Nat.le_of_not_lt hf) (by omega)
    refine ⟨1, fun d hd r => ⟨e, ?_⟩⟩
    obtain ⟨d, rfl⟩ := Nat.exists_eq_add_of_le' hd
    exact walk_error he

theorem yields_internal (hs : host.Stored file b (internalNode minKey cs))
    (h : List.Forall₂ (host.Yields file false · none) (cs.map Prod.snd) ts) :
    host.Yields file minKey.isSome b minKey
      ⟨ts.flatMap Subtree.entries, (internalNode minKey cs).length < 2 ^ 32 ∧ ∀ t ∈ ts, t.fits⟩ := by
  obtain ⟨hb, hp⟩ := hs.length_le
  have hgb := hg b.length.toNat (by omega)
  have hcs : cs.length ≤ (internalNode minKey cs).length := by
    have := length_le_length_flatMap fun c (_ : c ∈ cs) => appendChild_pos c
    simp only [internalNode, List.length_cons, List.length_append]
    omega
  have hd := reads_internalNode minKey (hg (16 * cs.length) (by omega))
  constructor
  case loads =>
    rintro ⟨hf, hts⟩
    obtain ⟨n, hn⟩ := loads_children h hts
    refine ⟨n + 1, fun d hd' r => ?_⟩
    obtain ⟨d, rfl⟩ := Nat.exists_eq_add_of_le' (Nat.le_of_add_left_le hd')
    rw [walk_internal (hs.readNode_ok hgb hd hf), hn d (by omega)]
  case fails =>
    intro hf
    by_cases hp32 : (internalNode minKey cs).length < 2 ^ 32
    case pos =>
      have hex : ∃ t ∈ ts, ¬t.fits := by
        by_contra hc
        exact hf ⟨hp32, fun t ht => by_contra fun hn => hc ⟨t, ht, hn⟩⟩
      obtain ⟨n, hn⟩ := fails_children h hex
      refine ⟨n + 1, fun d hd' r => ?_⟩
      obtain ⟨d, rfl⟩ := Nat.exists_eq_add_of_le' (Nat.le_of_add_left_le hd')
      rw [walk_internal (hs.readNode_ok hgb hd hp32)]
      exact hn d (by omega) _
    obtain ⟨e, he⟩ := hs.readNode_error hgb hd (Nat.le_of_not_lt hp32) (by omega)
    refine ⟨1, fun d hd r => ⟨e, ?_⟩⟩
    obtain ⟨d, rfl⟩ := Nat.exists_eq_add_of_le' hd
    exact walk_error he

theorem yields_leaves {level : List Child}
    (hs : List.Forall₂ (fun es c => host.Stored file c.2 (leafNode es)) pieces level) :
    ∃ ts, List.Forall₂ (host.Yields file false · none) (level.map Prod.snd) ts ∧
      ts.flatMap Subtree.entries = pieces.flatten ∧
      ((∀ t ∈ ts, t.fits) ↔ ∀ es ∈ pieces, (leafNode es).length < 2 ^ 32) := by
  induction hs
  case nil => exact ⟨[], .nil, rfl, by simp⟩
  case cons es c pieces level hc _ ih =>
    obtain ⟨ts, hts, hes, hfits⟩ := ih
    refine ⟨_, .cons (yields_leaf hg hlt hc) hts, ?_, ?_⟩
    · simp [hes]
    · simp [hfits]

theorem yields_parents {fanout : Nat} (hn : 0 < fanout) {level parents : List Child} {ts : List Subtree}
    (hs : List.Forall₂ (fun cs c => host.Stored file c.2 (internalNode none cs)) (level.chunks fanout) parents)
    (h : List.Forall₂ (host.Yields file false · none) (level.map Prod.snd) ts) :
    ∃ us, List.Forall₂ (host.Yields file false · none) (parents.map Prod.snd) us ∧
      us.flatMap Subtree.entries = ts.flatMap Subtree.entries ∧
      ((∀ u ∈ us, u.fits) ↔
        (∀ cs ∈ level.chunks fanout, (internalNode none cs).length < 2 ^ 32) ∧ ∀ t ∈ ts, t.fits) := by
  induction level using List.chunks_induction hn generalizing parents ts
  case nil =>
    cases h
    rw [List.chunks_nil] at hs
    cases hs
    exact ⟨[], .nil, rfl, by simp⟩
  case piece level hne ih =>
    rw [List.chunks_of_ne_nil hn hne] at hs ⊢
    cases hs
    case cons c parents hc hs =>
      have hfirst := List.forall₂_take fanout h
      have hrest := List.forall₂_drop fanout h
      rw [← List.map_take] at hfirst
      rw [← List.map_drop] at hrest
      obtain ⟨us, hus, hes, hfits⟩ := ih hs hrest
      refine ⟨_, .cons (yields_internal hg hlt hc hfirst) hus, ?_, ?_⟩
      · rw [List.flatMap_cons, hes, ← List.flatMap_append, List.take_append_drop]
      · have hall : (∀ t ∈ ts, t.fits) ↔ (∀ t ∈ ts.take fanout, t.fits) ∧ ∀ t ∈ ts.drop fanout, t.fits := by
          rw [← List.forall_mem_append, List.take_append_drop]
        simp only [List.forall_mem_cons, hfits, hall]
        tauto

end nodes

end Host

namespace Klog

variable {klog : Klog} {node : List α → Bytes} {sep : α → Bytes} {pieces : List (List α)}

theorem blocks_writeNodes : (klog.writeNodes host node sep pieces).1 =
    { klog with blocks := klog.blocks ++ pieces.map node } := by
  induction pieces generalizing klog
  case nil => simp [writeNodes]
  case cons p ps ih => simp [writeNodes, writeMetaBlock, ih]

theorem stored_writeNodes (hf : file = (klog.writeNodes host node sep pieces).1.bytes host ++ after)
    (hlt : file.length < 2 ^ 64) :
    List.Forall₂ (fun p c => host.Stored file c.2 (node p)) pieces (klog.writeNodes host node sep pieces).2 := by
  induction pieces generalizing klog
  case nil => exact .nil
  case cons p ps ih =>
    rw [writeNodes]
    refine .cons ?_ (ih hf)
    have hbytes : file = klog.bytes host ++ (host.frame (node p) ++ ((ps.map node).flatMap host.frame ++ after)) := by
      rw [hf, blocks_writeNodes]
      simp [bytes]
    have hlen := congrArg List.length hbytes
    simp only [List.length_append] at hlen
    refine ⟨_, _, hbytes, ?_, ?_⟩
    · exact UInt64.toNat_ofNat_of_lt' (hlt.trans_le' (by omega))
    · exact UInt64.toNat_ofNat_of_lt' (hlt.trans_le' (by omega))

section parents

variable {fanout : Fanout} {minKey : Bytes} {level : List Child}

theorem writeParents_root (hl : level.length ≤ fanout.1) :
    klog.writeParents host fanout minKey level =
      ((klog.writeNodes host (internalNode (some minKey)) Prod.fst (level.chunks fanout)).1,
        ((klog.writeNodes host (internalNode (some minKey)) Prod.fst (level.chunks fanout)).2.head?.map Prod.snd).getD
          ⟨0, 0⟩) := by
  rw [writeParents, if_pos hl]

theorem writeParents_more (hl : ¬level.length ≤ fanout.1) :
    klog.writeParents host fanout minKey level =
      writeParents host fanout minKey
        (klog.writeNodes host (internalNode none) Prod.fst (level.chunks fanout)).1
        (klog.writeNodes host (internalNode none) Prod.fst (level.chunks fanout)).2 := by
  rw [writeParents, if_neg hl]

@[elab_as_elim]
theorem parents_induction {motive : Klog → List Child → Prop} (host : Host) (fanout : Fanout)
    (root : ∀ klog level, level.length ≤ fanout.1 → motive klog level)
    (more : ∀ klog level, ¬level.length ≤ fanout.1 →
      motive (klog.writeNodes host (internalNode none) Prod.fst (level.chunks fanout)).1
        (klog.writeNodes host (internalNode none) Prod.fst (level.chunks fanout)).2 → motive klog level)
    (klog : Klog) (level : List Child) : motive klog level := by
  induction h : level.length using Nat.strongRecOn generalizing klog level
  case ind n ih =>
    by_cases hl : level.length ≤ fanout.1
    case pos => exact root klog level hl
    apply more klog level hl
    refine ih _ ?_ _ _ rfl
    rw [length_writeNodes, ← h]
    exact List.length_chunks_lt fanout.2 (Nat.lt_of_not_le hl)

theorem blocks_writeParents : ∃ ps, (klog.writeParents host fanout minKey level).1 =
    { klog with blocks := klog.blocks ++ ps } := by
  induction klog, level using parents_induction host fanout
  case root klog level hl =>
    rw [writeParents_root hl, blocks_writeNodes]
    exact ⟨_, rfl⟩
  case more klog level hl ih =>
    obtain ⟨ps, hps⟩ := ih
    rw [writeParents_more hl, hps, blocks_writeNodes]
    exact ⟨_, by simp [List.append_assoc]; rfl⟩

theorem bytes_writeParents : ∃ after, (klog.writeParents host fanout minKey level).1.bytes host =
    klog.bytes host ++ after := by
  obtain ⟨ps, hps⟩ := blocks_writeParents
  rw [hps]
  exact ⟨ps.flatMap host.frame, by simp [bytes]⟩

variable {file : Bytes} (hg : ∀ n ≤ 16 * file.length, host.grants n) (hlt : file.length < 2 ^ 64)
include hg hlt

theorem yields_writeParents {ts : List Host.Subtree} (hne : level ≠ [])
    (hf : file = (klog.writeParents host fanout minKey level).1.bytes host)
    (h : List.Forall₂ (host.Yields file false · none) (level.map Prod.snd) ts) :
    ∃ ps, (klog.writeParents host fanout minKey level).1 = { klog with blocks := klog.blocks ++ ps } ∧
      host.Yields file true (klog.writeParents host fanout minKey level).2 (some minKey)
        ⟨ts.flatMap Host.Subtree.entries, (∀ p ∈ ps, p.length < 2 ^ 32) ∧ ∀ t ∈ ts, t.fits⟩ := by
  have hpos : 0 < fanout.1 := by have := fanout.2; omega
  induction klog, level using parents_induction host fanout generalizing ts
  case root klog level hl =>
    rw [writeParents_root hl] at hf ⊢
    have hs := stored_writeNodes (hf.trans (List.append_nil _).symm) hlt
    rw [List.chunks_of_length_le hpos hne hl] at hs ⊢
    refine ⟨_, blocks_writeNodes, ?_⟩
    generalize (klog.writeNodes host (internalNode (some minKey)) Prod.fst [level]).2 = parents at hs
    cases hs
    case cons c parents hc hnil =>
      cases hnil
      simpa using Host.yields_internal hg hlt hc h
  case more klog level hl ih =>
    rw [writeParents_more hl] at hf ⊢
    -- The rest of the tree is appended behind the nodes of this level.
    obtain ⟨after, hafter⟩ := bytes_writeParents
    have hs := stored_writeNodes (hf.trans hafter) hlt
    obtain ⟨us, hus, hes, hfits⟩ := Host.yields_parents hg hlt hpos hs h
    have hne' : (klog.writeNodes host (internalNode none) Prod.fst (level.chunks fanout)).2 ≠ [] := by
      apply List.ne_nil_of_length_pos
      rw [length_writeNodes, List.chunks_of_ne_nil hpos hne]
      exact Nat.succ_pos _
    obtain ⟨ps, hps, hy⟩ := ih hne' hf hus
    refine ⟨(level.chunks fanout).map (internalNode none) ++ ps, ?_, ?_⟩
    · rw [hps, blocks_writeNodes, List.append_assoc]
    · rw [← hes]
      convert hy using 2
      rw [hfits, List.forall_mem_append, List.forall_mem_map]
      tauto

end parents

variable {fanout : Fanout} {minKey : Bytes} {entries : List IndexEntry}

def leaves (fanout : Fanout) (entries : List IndexEntry) : List (List IndexEntry) :=
  if (entries.chunks fanout).isEmpty then [[]] else entries.chunks fanout

theorem writeBtreeIndex_eq : klog.writeBtreeIndex host fanout minKey entries =
    writeParents host fanout minKey
      (klog.writeNodes host leafNode IndexEntry.userKey (leaves fanout entries)).1
      (klog.writeNodes host leafNode IndexEntry.userKey (leaves fanout entries)).2 := by
  unfold writeBtreeIndex leaves
  cases h : entries.chunks fanout <;> rfl

theorem leaves_ne_nil : leaves fanout entries ≠ [] := by
  unfold leaves
  split <;> simp_all

theorem flatten_leaves : (leaves fanout entries).flatten = entries := by
  have hpos : 0 < fanout.1 := by have := fanout.2; omega
  have hflat := List.flatten_chunks hpos entries
  unfold leaves
  split
  case isTrue h =>
    rw [List.isEmpty_iff.mp h] at hflat
    simpa using hflat
  case isFalse => exact hflat

def nodes (host : Host) (fanout : Fanout) (minKey : Bytes) (entries : List IndexEntry) (klog : Klog) : List Bytes :=
  (klog.writeBtreeIndex host fanout minKey entries).1.blocks.drop klog.blocks.length

theorem writeBtreeIndex_single (host : Host) (fanout : Fanout) (minKey : Bytes) (e : IndexEntry) (klog : Klog) :
    ∃ h, (klog.writeBtreeIndex host fanout minKey [e]).1 = { klog with
      blocks := klog.blocks ++ [leafNode [e], internalNode (some minKey) [(e.userKey, h)]] } := by
  have hfan := fanout.2
  have hleaves : leaves fanout [e] = [[e]] := by
    rw [leaves, List.chunks_of_length_le (by omega) (by simp) (by simp; omega)]
    rfl
  have hlevel : (klog.writeNodes host leafNode IndexEntry.userKey [[e]]).2 =
      [(e.userKey, (klog.writeMetaBlock host (leafNode [e])).2)] := rfl
  rw [writeBtreeIndex_eq, hleaves, hlevel, writeParents_root (by simp; omega), blocks_writeNodes, blocks_writeNodes,
    List.chunks_of_length_le (by omega) (by simp) (by simp; omega)]
  exact ⟨_, by simp; rfl⟩

theorem yields_writeBtreeIndex {file : Bytes} (hf : file = (klog.writeBtreeIndex host fanout minKey entries).1.bytes host)
    (hg : ∀ n ≤ 16 * file.length, host.grants n) (hlt : file.length < 2 ^ 64) :
    host.Yields file true (klog.writeBtreeIndex host fanout minKey entries).2 (some minKey)
      ⟨entries, ∀ p ∈ klog.nodes host fanout minKey entries, p.length < 2 ^ 32⟩ := by
  rw [writeBtreeIndex_eq] at hf
  obtain ⟨after, hafter⟩ := bytes_writeParents
  obtain ⟨ts, hts, hes, hfits⟩ := Host.yields_leaves hg hlt (stored_writeNodes (hf.trans hafter) hlt)
  have hne : (klog.writeNodes host leafNode IndexEntry.userKey (leaves fanout entries)).2 ≠ [] := by
    apply List.ne_nil_of_length_pos
    rw [length_writeNodes]
    exact List.length_pos_of_ne_nil leaves_ne_nil
  obtain ⟨ps, hps, hy⟩ := yields_writeParents hg hlt hne hf hts
  have hnodes : klog.nodes host fanout minKey entries = (leaves fanout entries).map leafNode ++ ps := by
    rw [nodes, writeBtreeIndex_eq, hps, blocks_writeNodes]
    simp
  rw [hes, flatten_leaves] at hy
  rw [writeBtreeIndex_eq, hnodes]
  convert hy using 2
  rw [hfits, List.forall_mem_append, List.forall_mem_map]
  exact and_comm

end Klog

namespace Host

theorem Fails.not_loadBtree (h : host.Fails file true root) :
    ¬∃ n, ∀ depth ≥ n, host.loadBtree file depth root = pure index := by
  rintro ⟨n, hn⟩
  obtain ⟨m, hm⟩ := h
  obtain ⟨e, he⟩ := hm (max n m) (le_max_right n m) ⟨[], []⟩
  have hload := hn (max n m) (le_max_left n m)
  rw [loadBtree, he] at hload
  cases hload

-- A B+tree gives back the entries it was written from, which are those a flat index gives back, if and
-- only if no node is longer than the header of its block can say.
theorem loadBtree_writeBtreeIndex_iff (host : Host) (fanout : Klog.Fanout) (minKey : Bytes)
    (entries : List IndexEntry) (klog : Klog) (file : Bytes)
    (hf : file = (klog.writeBtreeIndex host fanout minKey entries).1.bytes host) (hlt : file.length < 2 ^ 64)
    (hflat : (encodeIndex minKey entries).length < 2 ^ 64)
    (hg : ∀ n ≤ 48 * max file.length (encodeIndex minKey entries).length, host.grants n) :
    host.decodeIndex (encodeIndex minKey entries) = .ok (.of minKey entries, []) ∧
    ((∃ n, ∀ depth ≥ n, host.loadBtree file depth (klog.writeBtreeIndex host fanout minKey entries).2 =
        pure (.of minKey entries)) ↔
      ∀ p ∈ klog.nodes host fanout minKey entries, p.length < 2 ^ 32) := by
  have hy := Klog.yields_writeBtreeIndex hf (fun n hn => hg n (by omega)) hlt
  have hcount : entries.length ≤ (encodeIndex minKey entries).length := by
    have := length_le_length_flatMap fun e (_ : e ∈ entries) => appendEntry_pos e
    simp only [encodeIndex, List.length_append]
    omega
  refine ⟨(reads_encodeIndex (hg _ (by omega))).exact hflat, ?_, ?_⟩
  · exact fun h => by_contra fun hc => (hy.fails hc).not_loadBtree h
  · intro hfits
    obtain ⟨n, hn⟩ := hy.loads hfits
    refine ⟨n, fun d hd => ?_⟩
    rw [loadBtree, hn d hd]
    rfl

def plain : Host where
  crc := fun _ => 0
  decompress := fun _ _ _ => .error (.corruption "no codec")
  grants := fun _ => true

-- Five entries in nodes of two: three leaves, two nodes above them and the root.
theorem loadBtree_writeBtreeIndex_three_levels :
    let entries := [3, 5, 7, 9, 11].map fun k => (⟨[k], k.toUInt64, ⟨k.toUInt64, 1⟩⟩ : IndexEntry)
    let w := Klog.writeBtreeIndex plain ⟨2, by decide⟩ [1] entries ⟨[0, 0], []⟩
    w.1.blocks.length = 6 ∧
    plain.decodeIndex (encodeIndex [1] entries) = .ok (.of [1] entries, []) ∧
    ∃ n, ∀ depth ≥ n, plain.loadBtree (w.1.bytes plain) depth w.2 = pure (.of [1] entries) := by
  intro entries w
  have h := loadBtree_writeBtreeIndex_iff plain ⟨2, by decide⟩ [1] entries ⟨[0, 0], []⟩ _ rfl
    (by decide +kernel) (by decide +kernel) fun _ _ => rfl
  exact ⟨by decide +kernel, h.1, h.2.mpr (by decide +kernel)⟩

theorem length_appendUvarint_le (x : Nat) (h : x < 2 ^ 64) : (appendUvarint x).length ≤ 10 := by
  suffices ∀ k x, x < 2 ^ (7 * (k + 1)) → (appendUvarint x).length ≤ k + 1 from
    this 9 x (h.trans (by decide))
  intro k
  induction k
  case zero =>
    intro x hx
    rw [appendUvarint, if_pos (by simpa using hx)]
    rfl
  case succ k ih =>
    intro x hx
    rw [appendUvarint]
    split
    case isTrue => simp
    have hx' : x >>> 7 < 2 ^ (7 * (k + 1)) := by
      rw [Nat.shiftRight_eq_div_pow, Nat.div_lt_iff_lt_mul (by decide), ← Nat.pow_add]
      exact hx
    simpa using ih _ hx'

theorem not_loadBtree_of_long (hkey : e.userKey.length = 2 ^ 32) :
    ¬∃ n, ∀ depth ≥ n, plain.loadBtree
      ((Klog.writeBtreeIndex plain Klog.btreeFanout [] [e] ⟨[], []⟩).1.bytes plain) depth
      (Klog.writeBtreeIndex plain Klog.btreeFanout [] [e] ⟨[], []⟩).2 = pure (.of [] [e]) := by
  obtain ⟨h, hw⟩ := Klog.writeBtreeIndex_single plain Klog.btreeFanout [] e ⟨[], []⟩
  have hlong : 2 ^ 32 ≤ (leafNode [e]).length := by
    simp only [leafNode, List.flatMap_singleton, appendEntry, appendBytes, List.length_cons, List.length_append, hkey]
    omega
  apply Fails.not_loadBtree
  apply (Klog.yields_writeBtreeIndex rfl (fun _ _ => rfl) ?_).fails
  · intro hfits
    apply Nat.not_lt.mpr hlong
    apply hfits
    rw [Klog.nodes, hw]
    simp
  · -- Two blocks with one long key each are far shorter than a file can be.
    have hk := length_appendUvarint_le (2 ^ 32) (by decide)
    have hcount := length_appendUvarint_le 1 (by decide)
    have hzero := length_appendUvarint_le 0 (by decide)
    have h64 (x : UInt64) := length_appendUvarint_le x.toNat x.toNat_lt
    have hseq := h64 e.seq
    have hoff := h64 e.handle.offset
    have hlen := h64 e.handle.length
    have hoff' := h64 h.offset
    have hlen' := h64 h.length
    rw [hw]
    simp only [Klog.bytes, List.nil_append, List.flatMap_cons, List.flatMap_nil, List.append_nil, List.length_append,
      length_frame, leafNode, internalNode, Option.elim_some, appendChild, appendEntry, appendHandle, appendBytes,
      List.length_cons, List.length_nil, Nat.zero_add, hkey]
    omega

theorem loadBtree_misses_long :
    ∃ e : IndexEntry, e.userKey.length = 2 ^ 32 ∧ ¬∃ n, ∀ depth ≥ n, plain.loadBtree
      ((Klog.writeBtreeIndex plain Klog.btreeFanout [] [e] ⟨[], []⟩).1.bytes plain) depth
      (Klog.writeBtreeIndex plain Klog.btreeFanout [] [e] ⟨[], []⟩).2 = pure (.of [] [e]) :=
  ⟨⟨List.replicate (2 ^ 32) 0, 0, ⟨0, 0⟩⟩, List.length_replicate, not_loadBtree_of_long List.length_replicate⟩

end Host

end OndaDb.Sst
