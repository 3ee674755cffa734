import OndaDb.Delta.Theorems.Entry

namespace OndaDb.Delta

open Encoding Reader

section runs

def encodeRun : Bytes → List Entry → Bytes
  | _,       [] => []
  | prevKey, e :: es => encodeEntryDelta prevKey e ++ encodeRun e.key es

def Ordered (bytewise : Bool) (prevKey : Bytes) (es : List Entry) : Prop :=
  (prevKey :: es.map Entry.key).IsChain fun k k' => bytewise → precedes k' k = false

structure RunFits (bytewise : Bool) (prevKey : Bytes) (es : List Entry) : Prop where
  placed : ∀ e ∈ es, e.Placed
  ordered : Ordered bytewise prevKey es
  length : prevKey.length + (encodeRun prevKey es).length < 2 ^ 64

def CanonicalRun : Bytes → List Slot → Prop
  | _,       [] => True
  | prevKey, slot :: run => slot.1.Canonical prevKey ∧ CanonicalRun slot.2.key run

variable {bytewise : Bool} {prevKey b : Bytes} {e : Entry} {es : List Entry} {run : List Slot}

theorem ordered_cons : Ordered bytewise prevKey (e :: es) ↔
    (bytewise → precedes e.key prevKey = false) ∧ Ordered bytewise e.key es :=
  List.isChain_cons_cons

theorem RunFits.head (hf : RunFits bytewise prevKey (e :: es)) : e.Fits prevKey where
  placed := hf.placed e (List.mem_cons_self ..)
  length := by
    have := hf.length
    rw [encodeRun, List.length_append] at this
    omega

theorem RunFits.tail (hf : RunFits bytewise prevKey (e :: es)) : RunFits bytewise e.key es where
  placed := fun e' he => hf.placed e' (List.mem_cons_of_mem _ he)
  ordered := (ordered_cons.mp hf.ordered).2
  length := by
    have := hf.length
    have := length_key_add_le prevKey e
    rw [encodeRun, List.length_append] at *
    omega

theorem walkRun_eq_ok (h : walkRun bytewise left fuel prevKey b = .ok run) :
    (b.length = left ∧ run = []) ∨ ∃ fuel' s rest run', fuel = fuel' + 1 ∧
      decodeEntryDelta bytewise prevKey b = .ok (s, rest) ∧ left < b.length ∧
      walkRun bytewise left fuel' (s.entry prevKey).key rest = .ok run' ∧ run = (s, s.entry prevKey) :: run' := by
  rw [walkRun.eq_def] at h
  dsimp only at h
  split at h
  case isTrue => cases h
  case isFalse hge =>
    split at h
    case isTrue hl => cases h; exact .inl ⟨hl, rfl⟩
    case isFalse hne =>
      cases fuel
      case zero => cases h
      case succ fuel =>
        cases hd : decodeEntryDelta bytewise prevKey b with
        | error e => simp only [hd] at h; cases h
        | ok r =>
          cases hr : walkRun bytewise left fuel (r.1.entry prevKey).key r.2 with
          | error e => simp only [hd, hr, Bind.bind, Except.bind] at h; cases h
          | ok run' =>
            simp only [hd, hr, Except.bind, Bind.bind, pure, Except.pure, Except.ok.injEq] at h
            exact .inr ⟨fuel, r.1, r.2, run', rfl, rfl, by omega, hr, h.symm⟩

structure RunBytes (bytewise : Bool) (prevKey : Bytes) (run : List Slot) (p : Bytes) : Prop where
  fits : RunFits bytewise prevKey (run.map Prod.snd)
  length_le : (encodeRun prevKey (run.map Prod.snd)).length ≤ p.length
  eq : CanonicalRun prevKey run → p = encodeRun prevKey (run.map Prod.snd)
  ne_nil : p ≠ [] → run ≠ []

theorem RunBytes.nil (h : prevKey.length < 2 ^ 64) : RunBytes bytewise prevKey [] [] where
  fits := ⟨by simp, .singleton _, h⟩
  length_le := le_rfl
  eq := fun _ => rfl
  ne_nil := fun h => absurd rfl h

theorem walkRun_bytes (h : walkRun bytewise left fuel prevKey b = .ok run)
    (hlen : prevKey.length + b.length < 2 ^ 64) :
    ∃ p rest, b = p ++ rest ∧ rest.length = left ∧ RunBytes bytewise prevKey run p := by
  induction fuel generalizing prevKey b run
  all_goals obtain ⟨hl, rfl⟩ | ⟨fuel', s, b', run', hfuel, hd, -, hrun, rfl⟩ := walkRun_eq_ok h
  case zero.inl => exact ⟨[], b, rfl, hl, .nil (by omega)⟩
  case zero.inr => cases hfuel
  case succ.inl => exact ⟨[], b, rfl, hl, .nil (by omega)⟩
  case succ.inr _ ih =>
    cases hfuel
    obtain ⟨q, rfl, hq, hle, hf, hc⟩ := decodeEntryDelta_bytes hd hlen
    have hkey := length_key_add_le prevKey (s.entry prevKey)
    rw [List.length_append] at hlen
    obtain ⟨p, rest, rfl, hrest, hp⟩ := ih hrun (by omega)
    rw [List.length_append] at hlen
    have hlong := hp.length_le
    refine ⟨q ++ p, rest, by rw [List.append_assoc], hrest, ?_, ?_, ?_, by simp⟩
    case refine_1 =>
      constructor
      case placed =>
        rintro e he
        obtain rfl | he := List.mem_cons.mp he
        · exact hf.placed
        · exact hp.fits.placed e he
      case ordered => exact ordered_cons.mpr ⟨(decodeEntryDelta_eq_ok.mp hd).2.2, hp.fits.ordered⟩
      case length =>
        simp only [List.map_cons, encodeRun, List.length_append]
        omega
    case refine_2 =>
      simp only [List.map_cons, encodeRun, List.length_append]
      omega
    case refine_3 =>
      rintro ⟨hcan, hcans⟩
      rw [List.map_cons, encodeRun, ← hc hcan, ← hp.eq hcans]

end runs

section framing

def offsetsFrom : Nat → List Bytes → List Nat
  | _,   [] => []
  | off, p :: ps => off :: offsetsFrom (off + p.length) ps

def block (ps : List Bytes) : Bytes :=
  ps.flatten ++ ((offsetsFrom 0 ps).flatMap putU32 ++ putU32 ps.length)

variable {ps : List Bytes} {ns : List Nat} {b : Bytes}

end framing

section block

variable {bytewise : Bool} {entries p q : Bytes} {es : List Entry} {run : List Slot}

theorem decodeDeltaAnchor_eq_ok : decodeDeltaAnchor b = .ok (s, rest) ↔
    decodeDeltaHeader b = .ok (s, rest) ∧ s.head.shared = 0 := by
  rw [decodeDeltaAnchor, bind_eq_ok]
  constructor
  case mp =>
    rintro ⟨s', b', hs, h⟩
    split at h
    case isTrue => cases h
    case isFalse hne => cases h; exact ⟨hs, not_not.mp hne⟩
  case mpr =>
    rintro ⟨hs, h0⟩
    exact ⟨s, rest, hs, by rw [if_neg (not_not.mpr h0)]; rfl⟩

theorem materialize_bytes (h : materialize bytewise entries start stop = .ok run) (hlt : start < stop)
    (hstop : stop ≤ entries.length) (hlen : entries.length < 2 ^ 64) :
    (∃ s rest, decodeDeltaHeader (entries.drop start) = .ok (s, rest) ∧ s.head.shared = 0) ∧
    RunBytes bytewise [] run ((entries.drop start).take (stop - start)) := by
  rw [materialize, if_pos hlt] at h
  cases ha : decodeDeltaAnchor (entries.drop start) with
  | error e => rw [ha] at h; cases h
  | ok r =>
    rw [ha] at h
    change walkRun .. = _ at h
    obtain ⟨p, rest, hb, hrest, hp⟩ := walkRun_bytes h (by simp only [List.length_nil, List.length_drop]; omega)
    refine ⟨⟨r.1, r.2, decodeDeltaAnchor_eq_ok.mp ha⟩, ?_⟩
    have hdrop := congrArg List.length hb
    rw [List.length_drop, List.length_append] at hdrop
    rw [hb, List.take_left' (by omega)]
    exact hp

structure BlockBytes (bytewise : Bool) (entries : Bytes) (off : Nat) (offs : List Nat) (runs : List (List Slot))
    (ps : List Bytes) : Prop where
  flatten : entries.drop off = ps.flatten
  offsets : offs = offsetsFrom off ps
  reads : List.Forall₂ (RunBytes bytewise []) runs ps
  ne_nil : ∀ p ∈ ps, p ≠ []
  anchors : ∀ off ∈ offs, ∃ s rest, decodeDeltaHeader (entries.drop off) = .ok (s, rest) ∧ s.head.shared = 0

theorem BlockBytes.cons (hrun : materialize bytewise entries off stop = .ok run) (hlt : off < stop)
    (hstop : stop ≤ entries.length) (hlen : entries.length < 2 ^ 64)
    (h : BlockBytes bytewise entries stop offs runs ps) :
    BlockBytes bytewise entries off (off :: offs) (run :: runs) ((entries.drop off).take (stop - off) :: ps) := by
  obtain ⟨hanchor, hp⟩ := materialize_bytes hrun hlt hstop hlen
  have hplen : ((entries.drop off).take (stop - off)).length = stop - off := by
    rw [List.length_take, List.length_drop]
    omega
  constructor
  case flatten =>
    rw [List.flatten_cons, ← h.flatten]
    have hdrop : (entries.drop off).drop (stop - off) = entries.drop stop := by
      rw [List.drop_drop, show off + (stop - off) = stop by omega]
    rw [← hdrop, List.take_append_drop]
  case offsets =>
    rw [offsetsFrom, hplen, show off + (stop - off) = stop by omega, h.offsets]
  case reads => exact .cons hp h.reads
  case ne_nil =>
    intro p hmem
    obtain rfl | hmem := List.mem_cons.mp hmem
    · apply List.ne_nil_of_length_pos
      omega
    · exact h.ne_nil p hmem
  case anchors =>
    intro o ho
    obtain rfl | ho := List.mem_cons.mp ho
    · exact hanchor
    · exact h.anchors o ho

theorem BlockBytes.nil (entries : Bytes) : BlockBytes bytewise entries entries.length [] [] [] where
  flatten := by simp
  offsets := rfl
  reads := .nil
  ne_nil := by simp
  anchors := by simp

end block

end OndaDb.Delta
