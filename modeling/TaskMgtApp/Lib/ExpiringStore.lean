import Mathlib.Data.Finset.Card
import Mathlib.Data.Finset.Insert
import Mathlib.Data.Finset.Filter
import Mathlib.Logic.Function.Basic

/-!
# A key-value store whose keys expire

String keys hold a value and perhaps a deadline, the second at which the key is
gone; set keys hold a finite set and never expire. An expired cell is not
removed: every command looks through `look`, which does not see it. String
keys and set keys are kept in two maps, so a caller has to keep the two kinds of
key apart, as the real server would refuse a command on a key of the other kind.
-/
namespace TaskMgtApp.Lib.ExpiringStore

variable {K V M : Type}

/-- A value and the second from which it is gone. -/
structure Cell (V : Type) where
  value : V
  deadline : Option Nat
  deriving DecidableEq

/-- Whether a cell is still there at second `now`. -/
def Cell.live (now : Nat) (c : Cell V) : Bool :=
  match c.deadline with
  | none => true
  | some d => decide (now < d)

structure Store (K V M : Type) where
  cells : K → Option (Cell V)
  sets : K → Finset M

namespace Store

/-- The store with no key at all. -/
def empty : Store K V M := ⟨fun _ => none, fun _ => ∅⟩

/-- The cell of a key, unless it has expired. -/
def look (now : Nat) (k : K) (s : Store K V M) : Option (Cell V) :=
  (s.cells k).filter (Cell.live now)

/-- `GET`. -/
def get (now : Nat) (k : K) (s : Store K V M) : Option V := (s.look now k).map (·.value)

/-- `TTL`: the remaining seconds, -1 for a key without deadline, -2 for no key. -/
def ttl (now : Nat) (k : K) (s : Store K V M) : Int :=
  match s.look now k with
  | some ⟨_, some d⟩ => (d : Int) - now
  | some ⟨_, none⟩ => -1
  | none => if (s.sets k).card = 0 then -2 else -1

/-- `SMEMBERS`. -/
def smembers (k : K) (s : Store K V M) : Finset M := s.sets k

/-! ## The passage of time -/

section Time
variable {now later : Nat} {k : K} {s : Store K V M} {c : Cell V}

theorem look_eq_some : s.look now k = some c ↔ s.cells k = some c ∧ c.live now = true := by
  simp [look, Option.filter_eq_some_iff]

theorem live_of_le (hle : now ≤ later) (h : c.live later = true) : c.live now = true := by
  unfold Cell.live at h ⊢
  cases hd : c.deadline with
  | none => rfl
  | some d =>
    simp only [hd, decide_eq_true_eq] at h ⊢
    omega

/-- A key that is there later, if nothing is written, was there before. -/
theorem look_of_later (hle : now ≤ later) (h : s.look later k = some c) : s.look now k = some c := by
  rw [look_eq_some] at h ⊢
  exact ⟨h.1, live_of_le hle h.2⟩

/-- A key that is gone stays gone while nothing is written. -/
theorem look_none_later (hle : now ≤ later) (h : s.look now k = none) : s.look later k = none := by
  cases hl : s.look later k with
  | none => rfl
  | some c => rw [look_of_later hle hl] at h; cases h

/-- A cell with a deadline is there exactly until the deadline. -/
theorem look_later_iff {v : V} {d : Nat} (h : s.look now k = some ⟨v, some d⟩) :
    s.look later k = some ⟨v, some d⟩ ↔ later < d := by
  rw [look_eq_some] at h ⊢
  simp [h.1, Cell.live]

/-- The deadline of a cell that is seen lies ahead. -/
theorem lt_deadline {v : V} {d : Nat} (h : s.look now k = some ⟨v, some d⟩) : now < d :=
  (look_later_iff h).mp h

theorem get_eq_some {v : V} : s.get now k = some v ↔ ∃ d, s.look now k = some ⟨v, d⟩ := by
  unfold get
  cases s.look now k with
  | none => simp
  | some c => cases c; simp

theorem ttl_congr {s' : Store K V M} (hlook : s'.look now k = s.look now k)
    (hsets : s'.sets k = s.sets k) : s'.ttl now k = s.ttl now k := by
  simp only [ttl, hlook, hsets]

/-- A key with a deadline ahead has that long to live. -/
theorem ttl_of_look {v : V} {d : Nat} (h : s.look now k = some ⟨v, some d⟩) :
    s.ttl now k = (d : Int) - now := by
  simp only [ttl, h]

end Time

@[simp] theorem look_empty (now : Nat) (k : K) : (empty : Store K V M).look now k = none := rfl

variable [DecidableEq K]

/-- Write one cell. -/
def put (k : K) (c : Cell V) (s : Store K V M) : Store K V M :=
  { s with cells := Function.update s.cells k (some c) }

/-- `SET k v EX ex`. -/
def setEx (now : Nat) (k : K) (v : V) (ex : Nat) (s : Store K V M) : Store K V M :=
  s.put k ⟨v, some (now + ex)⟩

/-- `DEL`: the number of keys that were there, and the store without them. -/
def delete (now : Nat) (ks : Finset K) (s : Store K V M) : Nat × Store K V M :=
  ((ks.filter fun k => (s.look now k).isSome ∨ 0 < (s.sets k).card).card,
   { cells := fun k => if k ∈ ks then none else s.cells k
     sets := fun k => if k ∈ ks then ∅ else s.sets k })

/-- `INCR` for counters read by `count` and written by `ofCount`: the new count,
unless the value is no counter. A new counter has no deadline, an old one keeps its own. -/
def incr (count : V → Option Int) (ofCount : Int → V) (now : Nat) (k : K) (s : Store K V M) :
    Option (Int × Store K V M) :=
  match s.look now k with
  | none => some (1, s.put k ⟨ofCount 1, none⟩)
  | some c => (count c.value).map fun n => (n + 1, s.put k ⟨ofCount (n + 1), c.deadline⟩)

/-- `EXPIRE`: whether the key was there to be given a deadline. -/
def expire (now : Nat) (k : K) (seconds : Nat) (s : Store K V M) : Bool × Store K V M :=
  match s.look now k with
  | none => (false, s)
  | some c => (true, s.put k ⟨c.value, some (now + seconds)⟩)

/-! ## What a write does to each key -/

section Cells
variable (now t : Nat) (k k' : K) (s : Store K V M)

@[simp] theorem look_put (c : Cell V) :
    (s.put k c).look now k' = if k' = k then (some c).filter (Cell.live now) else s.look now k' := by
  by_cases h : k' = k
  · subst h; simp [look, put]
  · simp [look, put, h]

@[simp] theorem sets_put (c : Cell V) : (s.put k c).sets = s.sets := rfl

@[simp] theorem look_setEx (v : V) (ex : Nat) :
    (s.setEx t k v ex).look now k' =
      if k' = k then (if now < t + ex then some ⟨v, some (t + ex)⟩ else none)
      else s.look now k' := by
  by_cases h : k' = k
  · by_cases hn : now < t + ex <;> simp [setEx, h, Option.filter, Cell.live, hn]
  · simp [setEx, h]

@[simp] theorem sets_setEx (v : V) (ex : Nat) : (s.setEx t k v ex).sets = s.sets := rfl

@[simp] theorem look_delete (ks : Finset K) :
    (s.delete t ks).2.look now k = if k ∈ ks then none else s.look now k := by
  by_cases h : k ∈ ks <;> simp [look, delete, h]

@[simp] theorem sets_delete (ks : Finset K) :
    (s.delete t ks).2.sets k = if k ∈ ks then ∅ else s.sets k := rfl

theorem look_expire_of_ne {k k' : K} (hk : k' ≠ k) (seconds : Nat) :
    (s.expire t k seconds).2.look now k' = s.look now k' := by
  unfold expire
  cases s.look t k <;> simp [hk]

theorem look_expire_self {t : Nat} {k : K} {s : Store K V M} {c : Cell V} (h : s.look t k = some c)
    (seconds : Nat) : (s.expire t k seconds).2.look now k =
      if now < t + seconds then some ⟨c.value, some (t + seconds)⟩ else none := by
  by_cases hn : now < t + seconds <;> simp [expire, h, Option.filter, Cell.live, hn]

/-- `EXPIRE` writes no value. -/
theorem value_of_look_expire {t : Nat} {k k' : K} {s : Store K V M} {seconds : Nat} {c : Cell V}
    (h : (s.expire t k seconds).2.look t k' = some c) :
    ∃ c', s.look t k' = some c' ∧ c'.value = c.value := by
  by_cases hk : k' = k
  · subst hk
    cases hl : s.look t k' with
    | none =>
      simp only [expire, hl] at h
      cases h
    | some c' =>
      rw [look_expire_self t hl] at h
      split at h
      · obtain rfl := Option.some.inj h
        exact ⟨c', rfl, rfl⟩
      · cases h
  · rw [look_expire_of_ne t t s hk] at h
    exact ⟨c, h, rfl⟩

theorem expire_of_look_none {t : Nat} {k : K} {s : Store K V M} (h : s.look t k = none)
    (seconds : Nat) : (s.expire t k seconds).2 = s := by
  simp only [expire, h]

@[simp] theorem sets_expire (seconds : Nat) : (s.expire t k seconds).2.sets = s.sets := by
  unfold expire
  cases s.look t k <;> simp

/-- A new counter is one, an old one is one more; the cell is the only thing written. -/
theorem incr_eq_some {count : V → Option Int} {ofCount : Int → V} {n : Int} {s' : Store K V M} :
    s.incr count ofCount now k = some (n, s') ↔
      (s.look now k = none ∧ n = 1 ∧ s' = s.put k ⟨ofCount 1, none⟩) ∨
      (∃ c m, s.look now k = some c ∧ count c.value = some m ∧ n = m + 1 ∧
        s' = s.put k ⟨ofCount (m + 1), c.deadline⟩) := by
  unfold incr
  cases s.look now k with
  | none => simp [eq_comm]
  | some c => simp [eq_comm]

theorem look_incr_of_ne {count : V → Option Int} {ofCount : Int → V} {n : Int} {s s' : Store K V M}
    {k k' : K} (h : s.incr count ofCount t k = some (n, s')) (hk : k' ≠ k) :
    s'.look now k' = s.look now k' := by
  rcases (incr_eq_some t k s).mp h with ⟨-, -, rfl⟩ | ⟨c, m, -, -, -, rfl⟩ <;> simp [hk]

theorem sets_incr {count : V → Option Int} {ofCount : Int → V} {n : Int} {s s' : Store K V M}
    {k : K} (h : s.incr count ofCount t k = some (n, s')) : s'.sets = s.sets := by
  rcases (incr_eq_some t k s).mp h with ⟨-, -, rfl⟩ | ⟨c, m, -, -, -, rfl⟩ <;> rfl

end Cells

variable [DecidableEq M]

/-- `SADD` of one member. -/
def sadd (k : K) (m : M) (s : Store K V M) : Nat × Store K V M :=
  (if m ∈ s.sets k then 0 else 1, { s with sets := Function.update s.sets k (insert m (s.sets k)) })

/-- `SREM` of one member. -/
def srem (k : K) (m : M) (s : Store K V M) : Nat × Store K V M :=
  (if m ∈ s.sets k then 1 else 0, { s with sets := Function.update s.sets k ((s.sets k).erase m) })

section Members
variable (now : Nat) (k k' : K) (m : M) (s : Store K V M)

@[simp] theorem look_sadd : (s.sadd k m).2.look now k' = s.look now k' := rfl

@[simp] theorem sets_sadd :
    (s.sadd k m).2.sets k' = if k' = k then insert m (s.sets k) else s.sets k' := by
  by_cases h : k' = k
  · subst h; simp [sadd]
  · simp [sadd, h]

@[simp] theorem look_srem : (s.srem k m).2.look now k' = s.look now k' := rfl

@[simp] theorem sets_srem :
    (s.srem k m).2.sets k' = if k' = k then (s.sets k).erase m else s.sets k' := by
  by_cases h : k' = k
  · subst h; simp [srem]
  · simp [srem, h]

end Members

end Store

end TaskMgtApp.Lib.ExpiringStore
