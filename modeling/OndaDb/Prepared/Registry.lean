import OndaDb.Txn.Basic

namespace OndaDb.Prepared

variable {I K V : Type}

-- One unresolved prepared transaction: its writes, all of them point writes, and the generation of
-- the log its prepare frame is in.
structure Entry (I K V : Type) where
  id : I
  writes : List (WriteEntry K V)
  bytes : Nat
  prepareGen : Nat
  deriving DecidableEq, Repr

-- Every unresolved prepare, by id and by reserved key, and the resolved ids whose generations are
-- not both unlinked.
structure Registry (I K V : Type) where
  byId : Map I (Entry I K V)
  byKey : Map (Nat × K) I
  retiring : List I
  bytes : Nat
  maxBytes : Nat

namespace Registry

def new (maxBytes : Nat) : Registry I K V where
  byId := ∅
  byKey := ∅
  retiring := []
  bytes := 0
  maxBytes := maxBytes

variable [DecidableEq I] [LinearOrder K] (reg : Registry I K V)

def isEmpty : Bool :=
  reg.byKey.entries.isEmpty

def ownerOf (cf : Nat) (key : K) : Option I :=
  reg.byKey.lookup (cf, key)

def ownerInRange (cf : Nat) (start stop : K) : Option (I × K) :=
  (reg.byKey.entries.find? fun e => e.1.1 = cf ∧ start ≤ e.1.2 ∧ e.1.2 < stop).map
    fun e => (e.2, e.1.2)

def knows (id : I) : Bool :=
  (reg.byId.lookup id).isSome ∨ id ∈ reg.retiring

def isRetiring (id : I) : Bool :=
  id ∈ reg.retiring

def checkCapacity (bytes : Nat) : Except OndaError Unit :=
  if reg.bytes + bytes > reg.maxBytes then
    let held := reg.bytes
    let most := reg.maxBytes
    let n := reg.byId.entries.length
    .error (.tooLarge (s!"prepared transaction of {bytes} bytes would take the database past " ++
      s!"max_prepared_bytes ({most}); {held} bytes are held by {n} unresolved prepare(s)"))
  else .ok ()

def reserve (id : I) (byKey : Map (Nat × K) I) (w : WriteEntry K V) : Map (Nat × K) I :=
  byKey.insert (w.cf, w.key) id

def register (e : Entry I K V) : Registry I K V :=
  { reg with
    byKey := e.writes.foldl (reserve e.id) reg.byKey
    bytes := reg.bytes + e.bytes
    byId := reg.byId.insert e.id e }

-- A key is released only by the transaction that owns it.
def unreserve (id : I) (byKey : Map (Nat × K) I) (w : WriteEntry K V) : Map (Nat × K) I :=
  if byKey.lookup (w.cf, w.key) = some id then byKey.erase (w.cf, w.key) else byKey

-- The id stays known until both its generations are unlinked.
def resolve (id : I) : Option (Entry I K V × Registry I K V) :=
  (reg.byId.lookup id).map fun e =>
    (e, { reg with
      byId := reg.byId.erase id
      byKey := e.writes.foldl (unreserve id) reg.byKey
      bytes := reg.bytes - e.bytes
      retiring := reg.retiring.insert id })

def forget (id : I) : Registry I K V :=
  { reg with retiring := reg.retiring.filter (· ≠ id) }

variable {reg} {e : Entry I K V}

omit [DecidableEq I] in
theorem lookup_reserves (id : I) (ws : List (WriteEntry K V)) (m : Map (Nat × K) I) (k : Nat × K) :
    (ws.foldl (reserve id) m).lookup k =
      if ∃ w ∈ ws, (w.cf, w.key) = k then some id else m.lookup k := by
  induction ws generalizing m with
  | nil => simp
  | cons w ws ih =>
    rw [List.foldl_cons, ih]
    by_cases h : ∃ w' ∈ ws, (w'.cf, w'.key) = k
    · rw [if_pos h, if_pos (h.imp fun w' h => ⟨List.mem_cons_of_mem _ h.1, h.2⟩)]
    · rw [if_neg h, reserve, Map.lookup_insert_eq]
      simp only [List.exists_mem_cons_iff, h, or_false]
      exact if_congr eq_comm rfl rfl

theorem lookup_unreserves (id : I) (ws : List (WriteEntry K V)) (m : Map (Nat × K) I) (k : Nat × K) :
    (ws.foldl (unreserve id) m).lookup k =
      if (∃ w ∈ ws, (w.cf, w.key) = k) ∧ m.lookup k = some id then none else m.lookup k := by
  induction ws generalizing m with
  | nil => simp
  | cons w ws ih =>
    rw [List.foldl_cons, ih]
    simp only [List.exists_mem_cons_iff]
    have hstep : (unreserve id m w).lookup k =
        if (w.cf, w.key) = k ∧ m.lookup k = some id then none else m.lookup k := by
      rw [unreserve]
      split
      case isTrue h =>
        rw [Map.lookup_erase_eq]
        by_cases hk : (w.cf, w.key) = k
        · subst hk
          simp [h]
        · rw [if_neg fun h => hk h.symm, if_neg fun h => hk h.1]
      case isFalse h =>
        rw [if_neg]
        rintro ⟨rfl, hk⟩
        exact h hk
    rw [hstep]
    by_cases hk : (w.cf, w.key) = k ∧ m.lookup k = some id
    · simp [hk]
    · rw [if_neg hk]
      refine if_congr ?_ rfl rfl
      grind

end Registry

end OndaDb.Prepared
