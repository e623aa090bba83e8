import Abacus.Symbols

/-!
# One namespace in two tables

Variables and functions share a namespace: the two tables of symbols represent one finite map from
names to what they denote, and each operation on them is an operation on that map.
-/
namespace Abacus

variable {φ : Type}

inductive Meaning (φ : Type)
  | value (n : Int)
  | routine (f : Routine φ)

namespace Meaning

def value? : Meaning φ → Option Int
  | .value n => some n
  | .routine _ => none

def routine? : Meaning φ → Option (Routine φ)
  | .value _ => none
  | .routine f => some f

end Meaning

abbrev Meanings (φ : Type) := Std.ExtTreeMap String (Meaning φ)

def Meanings.value? (m : Meanings φ) (x : String) : Option Int :=
  m[x]?.bind Meaning.value?

def Meanings.routine? (m : Meanings φ) (x : String) : Option (Routine φ) :=
  m[x]?.bind Meaning.routine?

namespace Meanings

theorem value?_insert (m : Meanings φ) (x : String) (d : Meaning φ) (y : String) :
    value? (m.insert x d) y = if compare x y = .eq then d.value? else m.value? y := by
  unfold value?
  rw [Std.ExtTreeMap.getElem?_insert]
  split <;> rfl

theorem routine?_insert (m : Meanings φ) (x : String) (d : Meaning φ) (y : String) :
    routine? (m.insert x d) y = if compare x y = .eq then d.routine? else m.routine? y := by
  unfold routine?
  rw [Std.ExtTreeMap.getElem?_insert]
  split <;> rfl

theorem value?_erase (m : Meanings φ) (x y : String) :
    value? (m.erase x) y = if compare x y = .eq then none else m.value? y := by
  unfold value?
  rw [Std.ExtTreeMap.getElem?_erase]
  split <;> rfl

theorem routine?_erase (m : Meanings φ) (x y : String) :
    routine? (m.erase x) y = if compare x y = .eq then none else m.routine? y := by
  unfold routine?
  rw [Std.ExtTreeMap.getElem?_erase]
  split <;> rfl

end Meanings

section size

variable {β γ δ : Type} {t : Std.ExtTreeMap String β} {u : Std.ExtTreeMap String γ}
  {m : Std.ExtTreeMap String δ} {x : String}

theorem size_erase_of_contains (h : t.contains x) : (t.erase x).size + 1 = t.size := by
  have hne : t.size ≠ 0 := by
    intro hzero
    rw [Std.ExtTreeMap.eq_empty_iff_size_eq_zero.mpr hzero] at h
    exact Std.ExtTreeMap.not_mem_empty (Std.ExtTreeMap.contains_iff_mem.mp h)
  rw [Std.ExtTreeMap.size_erase, if_pos h]
  omega

theorem erase_of_not_contains (h : ¬ t.contains x) : t.erase x = t := by
  refine Std.ExtTreeMap.ext_getElem? fun y => ?_
  rw [Std.ExtTreeMap.getElem?_erase]
  split
  · next hxy =>
    obtain rfl : x = y := Std.LawfulEqCmp.eq_of_compare hxy
    rw [Std.ExtTreeMap.contains_eq_isSome_getElem?, Option.not_isSome_iff_eq_none] at h
    exact h.symm
  · rfl

/-- To bind a name in one of two disjoint tables and to take it out of the other is to bind it in
both together. -/
theorem size_insert_add_size_erase (b : β) (d : δ) (hdisjoint : ¬ (t.contains x ∧ u.contains x))
    (hcontains : m.contains x = (t.contains x || u.contains x))
    (hsize : t.size + u.size = m.size) :
    (t.insert x b).size + (u.erase x).size = (m.insert x d).size := by
  rw [Std.ExtTreeMap.size_insert, Std.ExtTreeMap.size_insert, hcontains]
  by_cases ht : t.contains x
  · have hu : ¬ u.contains x := fun hu => hdisjoint ⟨ht, hu⟩
    rw [erase_of_not_contains hu, if_pos ht, if_pos (by rw [ht, Bool.true_or])]
    exact hsize
  · by_cases hu : u.contains x
    · have herase := size_erase_of_contains hu
      rw [if_neg ht, if_pos (by rw [hu, Bool.or_true])]
      omega
    · rw [erase_of_not_contains hu, if_neg ht, if_neg (by simp [ht, hu])]
      omega

theorem size_erase_add_size_erase (hdisjoint : ¬ (t.contains x ∧ u.contains x))
    (hcontains : m.contains x = (t.contains x || u.contains x))
    (hsize : t.size + u.size = m.size) :
    (t.erase x).size + (u.erase x).size = (m.erase x).size := by
  by_cases ht : t.contains x
  · have hu : ¬ u.contains x := fun hu => hdisjoint ⟨ht, hu⟩
    have htsize := size_erase_of_contains ht
    have hmsize := size_erase_of_contains (hcontains.trans (by rw [ht, Bool.true_or]))
    rw [erase_of_not_contains hu]
    omega
  · by_cases hu : u.contains x
    · have husize := size_erase_of_contains hu
      have hmsize := size_erase_of_contains (hcontains.trans (by rw [hu, Bool.or_true]))
      rw [erase_of_not_contains ht]
      omega
    · have hm : ¬ m.contains x := by simp [hcontains, ht, hu]
      rw [erase_of_not_contains ht, erase_of_not_contains hu, erase_of_not_contains hm]
      exact hsize

end size

namespace Symbols

/-- The two tables are disjoint, and together they are the map. -/
structure Represents (s : Symbols φ) (m : Meanings φ) : Prop where
  disjoint : ∀ x, ¬ (x ∈ s.values ∧ x ∈ s.routines)
  value?_eq : ∀ x, s.value? x = m.value? x
  routine?_eq : ∀ x, s.routine? x = m.routine? x
  contains_eq : ∀ x, s.contains x = m.contains x
  size_eq : s.size = m.size

theorem contains_values (s : Symbols φ) (x : String) :
    s.values.contains x = (s.value? x).isSome := Std.ExtTreeMap.contains_eq_isSome_getElem?

theorem contains_routines (s : Symbols φ) (x : String) :
    s.routines.contains x = (s.routine? x).isSome := Std.ExtTreeMap.contains_eq_isSome_getElem?

theorem value?_putVariable (s : Symbols φ) (x : String) (n : Int) (y : String) :
    (s.putVariable x n).value? y = if x = y then some n else s.value? y := by
  simp [value?, putVariable, Std.ExtTreeMap.getElem?_insert]

theorem routine?_putVariable (s : Symbols φ) (x : String) (n : Int) (y : String) :
    (s.putVariable x n).routine? y = if x = y then none else s.routine? y := by
  simp [routine?, putVariable, Std.ExtTreeMap.getElem?_erase]

theorem value?_putFunction (s : Symbols φ) (x : String) (f : Routine φ) (y : String) :
    (s.putFunction x f).value? y = if x = y then none else s.value? y := by
  simp [value?, putFunction, Std.ExtTreeMap.getElem?_erase]

theorem routine?_putFunction (s : Symbols φ) (x : String) (f : Routine φ) (y : String) :
    (s.putFunction x f).routine? y = if x = y then some f else s.routine? y := by
  simp [routine?, putFunction, Std.ExtTreeMap.getElem?_insert]

theorem represents_of {s : Symbols φ} {m : Meanings φ} (hv : ∀ x, s.value? x = m.value? x)
    (hr : ∀ x, s.routine? x = m.routine? x) (hsize : s.size = m.size) : s.Represents m := by
  refine ⟨fun x => ?_, hv, hr, fun x => ?_, hsize⟩
  · rintro ⟨hvalue, hroutine⟩
    rw [← Std.ExtTreeMap.contains_iff_mem, contains_values, hv] at hvalue
    rw [← Std.ExtTreeMap.contains_iff_mem, contains_routines, hr] at hroutine
    unfold Meanings.value? at hvalue
    unfold Meanings.routine? at hroutine
    cases hx : m[x]? with
    | none =>
      rw [hx] at hvalue
      cases hvalue
    | some d =>
      rw [hx] at hvalue hroutine
      cases d with
      | value n => cases hroutine
      | routine f => cases hvalue
  · rw [contains, contains_values, contains_routines, hv, hr,
      Std.ExtTreeMap.contains_eq_isSome_getElem?]
    unfold Meanings.value? Meanings.routine?
    cases m[x]? with
    | none => rfl
    | some d => cases d <;> rfl

theorem represents_empty (limit : Int) : ({ limit } : Symbols φ).Represents ∅ :=
  represents_of (fun _ => rfl) (fun _ => rfl) rfl

namespace Represents

variable {s : Symbols φ} {m : Meanings φ}

theorem not_contains (h : s.Represents m) (x : String) :
    ¬ (s.values.contains x ∧ s.routines.contains x) := by
  rintro ⟨hvalue, hroutine⟩
  exact h.disjoint x
    ⟨Std.ExtTreeMap.contains_iff_mem.mp hvalue, Std.ExtTreeMap.contains_iff_mem.mp hroutine⟩

theorem putVariable (h : s.Represents m) (x : String) (n : Int) :
    (s.putVariable x n).Represents (m.insert x (.value n)) := by
  refine represents_of (fun y => ?_) (fun y => ?_) ?_
  · rw [Meanings.value?_insert, ← h.value?_eq]
    exact Std.ExtTreeMap.getElem?_insert
  · rw [Meanings.routine?_insert, ← h.routine?_eq]
    exact Std.ExtTreeMap.getElem?_erase
  · exact size_insert_add_size_erase n _ (h.not_contains x) (h.contains_eq x).symm h.size_eq

theorem putFunction (h : s.Represents m) (x : String) (f : Routine φ) :
    (s.putFunction x f).Represents (m.insert x (.routine f)) := by
  refine represents_of (fun y => ?_) (fun y => ?_) ?_
  · rw [Meanings.value?_insert, ← h.value?_eq]
    exact Std.ExtTreeMap.getElem?_erase
  · rw [Meanings.routine?_insert, ← h.routine?_eq]
    exact Std.ExtTreeMap.getElem?_insert
  · have hcontains : m.contains x = (s.routines.contains x || s.values.contains x) := by
      rw [← h.contains_eq, contains, Bool.or_comm]
    have hsize : s.routines.size + s.values.size = m.size := by
      rw [← h.size_eq, size, Nat.add_comm]
    have hdisjoint : ¬ (s.routines.contains x ∧ s.values.contains x) :=
      fun hx => h.not_contains x hx.symm
    exact (Nat.add_comm _ _).trans (size_insert_add_size_erase f _ hdisjoint hcontains hsize)

/-- Where the tables are disjoint, a name is taken out of both at once. -/
theorem remove_eq (h : s.Represents m) (x : String) :
    s.remove x = (s.contains x,
      { s with values := s.values.erase x, routines := s.routines.erase x }) := by
  obtain ⟨limit, values, routines⟩ := s
  have hdisjoint := h.not_contains x
  by_cases hv : values.contains x
  · have hr : ¬ routines.contains x := fun hr => hdisjoint ⟨hv, hr⟩
    rw [Symbols.remove, if_pos hv, contains, hv, erase_of_not_contains hr]
    rfl
  · by_cases hr : routines.contains x
    · rw [Symbols.remove, if_neg hv, if_pos hr, contains, hr, erase_of_not_contains hv,
        Bool.or_true]
    · have hc : (values.contains x || routines.contains x) = false := by simp [hv, hr]
      rw [Symbols.remove, if_neg hv, if_neg hr, contains, hc, erase_of_not_contains hv,
        erase_of_not_contains hr]

theorem remove (h : s.Represents m) (x : String) :
    (s.remove x).1 = m.contains x ∧ (s.remove x).2.Represents (m.erase x) := by
  rw [h.remove_eq]
  refine ⟨h.contains_eq x, represents_of (fun y => ?_) (fun y => ?_) ?_⟩
  · rw [Meanings.value?_erase, ← h.value?_eq]
    exact Std.ExtTreeMap.getElem?_erase
  · rw [Meanings.routine?_erase, ← h.routine?_eq]
    exact Std.ExtTreeMap.getElem?_erase
  · exact size_erase_add_size_erase (h.not_contains x) (h.contains_eq x).symm h.size_eq

/-- The map and the limit determine the symbols. -/
theorem eq_of_limit {s' : Symbols φ} (h : s.Represents m) (h' : s'.Represents m)
    (hlimit : s.limit = s'.limit) : s = s' := by
  obtain ⟨limit, values, routines⟩ := s
  obtain ⟨limit', values', routines'⟩ := s'
  obtain rfl : limit = limit' := hlimit
  have hvalues : values = values' :=
    Std.ExtTreeMap.ext_getElem? fun x => (h.value?_eq x).trans (h'.value?_eq x).symm
  have hroutines : routines = routines' :=
    Std.ExtTreeMap.ext_getElem? fun x => (h.routine?_eq x).trans (h'.routine?_eq x).symm
  rw [hvalues, hroutines]

end Represents

end Symbols

end Abacus
