import Abacus.Proofs.History.Operations

/-!
# Atomic operations

An operation that raises a fault leaves the tables as they were. This does not depend on the way in
which the tables are kept: carried out in place, one change after the other and one name after the
other, an operation has passed all its checks before its first change, and no change can fail
(`Operation.run_inPlace`).
-/
namespace Abacus

variable {φ ε α : Type}

/-- Work on symbols in place: what has been changed before a fault is raised stays changed. -/
abbrev InPlace (φ : Type) := ExceptT Fault (StateM (Symbols φ))

namespace InPlace

def run (p : InPlace φ α) (s : Symbols φ) : Except Fault α × Symbols φ := StateT.run p s

def check (r : Except Fault α) : InPlace φ α := ExceptT.mk (pure r)

theorem run_bind {β : Type} (p : InPlace φ α) (f : α → InPlace φ β) (s : Symbols φ) :
    (p >>= f).run s =
      match p.run s with
      | (.ok a, s) => (f a).run s
      | (.error e, s) => (.error e, s) := by
  change (match p.run s with | (r, s) => (ExceptT.bindCont f r : StateM _ _) s) = _
  rcases p.run s with ⟨_ | a, s'⟩ <;> rfl

theorem run_get_bind (f : Symbols φ → InPlace φ α) (s : Symbols φ) :
    (get >>= f).run s = (f s).run s := rfl

theorem run_modify_bind (g : Symbols φ → Symbols φ) (p : InPlace φ α) (s : Symbols φ) :
    (modify g >>= fun _ => p).run s = p.run (g s) := rfl

def setVariable (name value : Datum) : InPlace φ (Option Int) := do
  let x ← check (checkName name)
  let n ← check (checkValue name value)
  modify fun s => { s with routines := s.routines.erase x }
  let previous := (← get).value? x
  modify fun s => { s with values := s.values.insert x n }
  return previous

def setFunction (name : Datum) (offer : Offer φ) (arity : Option Int) : InPlace φ Unit := do
  let x ← check (checkName name)
  let f ← check (offer.toRoutine arity (← get).limit)
  modify fun s => { s with values := s.values.erase x }
  modify fun s => { s with routines := s.routines.insert x f }

def setStandard : List Standard → InPlace φ Unit
  | [] => return ()
  | f :: fs => do
    setFunction (.text f.name) (.routine f.routine) none
    setStandard fs

def install (names : List String) : InPlace φ Unit := do
  let unknown := names.filter fun x => (Standard.ofName? x).isNone
  if !unknown.isEmpty then throw (.binding (.unknownStandard unknown))
  let limit := (← get).limit
  let tooWide := names.filter fun x => (Standard.ofName? x).any fun f => limit < f.arity
  if !tooWide.isEmpty then throw (.binding (.tooWide (← check (decimal limit)) tooWide))
  setStandard (names.filterMap Standard.ofName?)

def remove (name : String) : InPlace φ Bool := do
  let bound := (← get).values.contains name
  modify fun s => { s with values := s.values.erase name }
  if bound then return true
  let bound := (← get).routines.contains name
  modify fun s => { s with routines := s.routines.erase name }
  return bound

end InPlace

def Operation.inPlace : Operation φ → InPlace φ Reply
  | bindVariable name value => do
    let _ ← InPlace.setVariable name value
    return .done
  | set name value => return .previous (← InPlace.setVariable name value)
  | bindFunction name offer arity => do
    InPlace.setFunction name offer arity
    return .done
  | install names => do
    InPlace.install (Standard.selected names)
    return .done
  | unbind name => return .found (← InPlace.remove name)

/-- What comes of an operation that changes the symbols at once or not at all. -/
def Symbols.commit (s : Symbols φ) :
    Except Fault (α × Symbols φ) → Except Fault α × Symbols φ
  | .ok (a, s') => (.ok a, s')
  | .error e => (.error e, s)

namespace InPlace

theorem run_setVariable (name value : Datum) (s : Symbols φ) :
    (setVariable name value).run s = s.commit (s.setVariable name value) := by
  unfold setVariable Symbols.setVariable
  cases checkName name with
  | error e => rfl
  | ok x => cases checkValue name value <;> rfl

theorem run_setFunction (name : Datum) (offer : Offer φ) (arity : Option Int) (s : Symbols φ) :
    (setFunction name offer arity).run s =
      s.commit ((s.setFunction name offer arity).map ((), ·)) := by
  unfold setFunction Symbols.setFunction
  cases checkName name with
  | error e => rfl
  | ok x =>
    change (do
      let f ← check (offer.toRoutine arity s.limit)
      modify fun s => { s with values := s.values.erase x }
      modify fun s => { s with routines := s.routines.insert x f } : InPlace φ Unit).run s = _
    cases offer.toRoutine arity s.limit <;> rfl

theorem run_remove (name : String) (s : Symbols φ) :
    (remove name).run s = (.ok (s.remove name).1, (s.remove name).2) := by
  simp only [remove, run_get_bind, run_modify_bind, Symbols.remove]
  by_cases hvalues : s.values.contains name
  · rw [if_pos hvalues, if_pos hvalues]
    rfl
  · -- To erase a name that is not there changes nothing.
    rw [if_neg hvalues, if_neg hvalues, erase_of_not_contains hvalues]
    by_cases hroutines : s.routines.contains name
    · rw [if_pos hroutines]
      simp only [run_get_bind, run_modify_bind, hroutines]
      rfl
    · rw [if_neg hroutines]
      simp only [run_get_bind, run_modify_bind, erase_of_not_contains hroutines, hroutines]
      rfl

end InPlace

theorem Standard.isName_name (f : Standard) : isName f.name := by
  cases f <;> rfl

theorem Symbols.setFunction_standard {s : Symbols φ} {f : Standard} (hf : f.arity ≤ s.limit) :
    s.setFunction (.text f.name) (.routine f.routine) none =
      .ok (s.putFunction f.name f.routine) := by
  have hname : checkName (.text f.name) = .ok f.name := if_pos f.isName_name
  have harity : 0 ≤ (f.routine : Routine φ).arity ∧ (f.routine : Routine φ).arity ≤ s.limit :=
    ⟨Int.natCast_nonneg _, hf⟩
  have hroutine : (Offer.routine (f.routine : Routine φ)).toRoutine none s.limit =
      .ok f.routine := if_pos harity
  rw [setFunction, hname]
  change (do return s.putFunction f.name (← (Offer.routine f.routine).toRoutine none s.limit)) = _
  rw [hroutine]
  rfl

theorem InPlace.run_setStandard {fs : List Standard} {s : Symbols φ}
    (hfs : ∀ f ∈ fs, f.arity ≤ s.limit) :
    (setStandard fs).run s =
      (.ok (), fs.foldl (fun s f => s.putFunction f.name f.routine) s) := by
  induction fs generalizing s with
  | nil => rfl
  | cons f fs ih =>
    obtain ⟨hf, hfs⟩ := List.forall_mem_cons.mp hfs
    have hfirst : (setFunction (.text f.name) (.routine f.routine) none).run s =
        (.ok (), s.putFunction f.name f.routine) := by
      rw [run_setFunction, Symbols.setFunction_standard hf]
      rfl
    rw [setStandard, run_bind, hfirst]
    exact ih hfs

theorem Standard.ofName?_eq_some_iff {x : String} {f : Standard} :
    ofName? x = some f ↔ f.name = x := by
  constructor
  · intro h
    exact beq_iff_eq.mp (List.find?_some (p := fun g : Standard => g.name == x) h)
  · rintro rfl
    cases f <;> rfl

def Standard.Unknown (names : List String) : Prop := ∃ x ∈ names, ∀ f : Standard, f.name ≠ x

def Symbols.TooWide (s : Symbols φ) (names : List String) : Prop :=
  ∃ f : Standard, f.name ∈ names ∧ s.limit < f.arity

theorem Standard.unknown_iff (names : List String) :
    Unknown names ↔ (names.filter fun x => (ofName? x).isNone).isEmpty = false := by
  have hnone : ∀ x, (ofName? x).isNone ↔ ∀ f : Standard, f.name ≠ x := by
    intro x
    rw [Option.isNone_iff_eq_none, Option.eq_none_iff_forall_ne_some]
    exact forall_congr' fun f => not_congr ofName?_eq_some_iff
  rw [Unknown, List.isEmpty_eq_false_iff_exists_mem]
  refine exists_congr fun x => ?_
  rw [List.mem_filter, hnone]

theorem Symbols.tooWide_iff (s : Symbols φ) (names : List String) :
    s.TooWide names ↔ (names.filter fun x =>
      (Standard.ofName? x).any fun f => s.limit < f.arity).isEmpty = false := by
  rw [TooWide, List.isEmpty_eq_false_iff_exists_mem]
  constructor
  · rintro ⟨f, hf, hwide⟩
    refine ⟨f.name, List.mem_filter.mpr ⟨hf, ?_⟩⟩
    rw [Standard.ofName?_eq_some_iff.mpr rfl]
    exact decide_eq_true hwide
  · rintro ⟨x, hx⟩
    obtain ⟨hx, hwide⟩ := List.mem_filter.mp hx
    cases hf : Standard.ofName? x with
    | none =>
      rw [hf] at hwide
      cases hwide
    | some f =>
      rw [hf] at hwide
      rw [← Standard.ofName?_eq_some_iff.mp hf] at hx
      exact ⟨f, hx, of_decide_eq_true hwide⟩

theorem Standard.mem_filterMap_ofName? {names : List String} {f : Standard} :
    f ∈ names.filterMap ofName? ↔ f.name ∈ names := by
  rw [List.mem_filterMap]
  constructor
  · rintro ⟨x, hx, hf⟩
    rwa [ofName?_eq_some_iff.mp hf]
  · exact fun hf => ⟨f.name, hf, ofName?_eq_some_iff.mpr rfl⟩

theorem Symbols.arity_le_of_not_tooWide {s : Symbols φ} {names : List String}
    (h : ¬ s.TooWide names) : ∀ f ∈ names.filterMap Standard.ofName?, (f.arity : Int) ≤ s.limit :=
  fun f hf => Int.not_lt.mp fun hlt => h ⟨f, Standard.mem_filterMap_ofName?.mp hf, hlt⟩

def Showable (n : Int) : Prop := n.natAbs < Nat.pow 10 digitLimit

theorem decimal_of_showable {n : Int} (h : Showable n) : decimal n = .ok (toString n) := if_pos h

theorem decimal_of_not_showable {n : Int} (h : ¬ Showable n) :
    decimal n = .error .numeralTooLong := if_neg h

theorem not_showable_pow : ¬ Showable (Nat.pow 10 digitLimit : Nat) := by
  rw [Showable, Int.natAbs_natCast]
  exact Nat.lt_irrefl _

namespace Symbols

variable {s : Symbols φ} {names : List String}

theorem install_of_unknown (h : Standard.Unknown names) :
    ∃ e, s.install names = .error (.binding e) := by
  refine ⟨.unknownStandard (names.filter fun x => (Standard.ofName? x).isNone), ?_⟩
  have hunknown := (Standard.unknown_iff names).mp h
  simp only [install, hunknown, Bool.not_false, if_true]

theorem install_of_tooWide (hknown : ¬ Standard.Unknown names) (h : s.TooWide names) :
    ∃ wide, s.install names = (do throw (.binding (.tooWide (← decimal s.limit) wide))) := by
  rw [Standard.unknown_iff, Bool.not_eq_false] at hknown
  have hwide := (s.tooWide_iff names).mp h
  refine ⟨names.filter fun x => (Standard.ofName? x).any fun f => s.limit < f.arity, ?_⟩
  simp only [install, hknown, hwide, Bool.not_true, Bool.not_false, Bool.false_eq_true, if_true,
    if_false]

theorem install_of_admitted (hknown : ¬ Standard.Unknown names) (h : ¬ s.TooWide names) :
    s.install names = .ok ((names.filterMap Standard.ofName?).foldl
      (fun s f => s.putFunction f.name f.routine) s) := by
  rw [Standard.unknown_iff, Bool.not_eq_false] at hknown
  rw [tooWide_iff, Bool.not_eq_false] at h
  simp only [install, hknown, h, Bool.not_true, Bool.false_eq_true, if_false]

theorem value?_putFunctions_of_ne {fs : List Standard} {x : String}
    (hx : ∀ f ∈ fs, f.name ≠ x) (s : Symbols φ) :
    (fs.foldl (fun s f => s.putFunction f.name f.routine) s).value? x = s.value? x := by
  induction fs generalizing s with
  | nil => rfl
  | cons f fs ih =>
    obtain ⟨hf, hfs⟩ := List.forall_mem_cons.mp hx
    rw [List.foldl_cons, ih hfs, value?_putFunction, if_neg hf]

theorem routine?_putFunctions_of_ne {fs : List Standard} {x : String}
    (hx : ∀ f ∈ fs, f.name ≠ x) (s : Symbols φ) :
    (fs.foldl (fun s f => s.putFunction f.name f.routine) s).routine? x = s.routine? x := by
  induction fs generalizing s with
  | nil => rfl
  | cons f fs ih =>
    obtain ⟨hf, hfs⟩ := List.forall_mem_cons.mp hx
    rw [List.foldl_cons, ih hfs, routine?_putFunction, if_neg hf]

/-- A standard function that has been bound stays bound while others are. -/
theorem putFunctions_of_mem {fs : List Standard} {f : Standard} (hf : f ∈ fs) (s : Symbols φ) :
    (fs.foldl (fun s f => s.putFunction f.name f.routine) s).value? f.name = none ∧
      (fs.foldl (fun s f => s.putFunction f.name f.routine) s).routine? f.name =
        some f.routine := by
  induction fs generalizing s with
  | nil => cases hf
  | cons g fs ih =>
    rw [List.foldl_cons]
    by_cases hfs : f ∈ fs
    · exact ih hfs _
    · obtain rfl : f = g := (List.mem_cons.mp hf).resolve_right hfs
      have hne : ∀ g ∈ fs, g.name ≠ f.name := by
        intro g hg hname
        have hgf := Standard.ofName?_eq_some_iff.mpr hname
        rw [Standard.ofName?_eq_some_iff.mpr rfl] at hgf
        exact hfs (Option.some.inj hgf ▸ hg)
      rw [value?_putFunctions_of_ne hne, routine?_putFunctions_of_ne hne, value?_putFunction,
        routine?_putFunction, if_pos rfl, if_pos rfl]
      exact ⟨rfl, rfl⟩

/-- In `s'` the names denote standard functions and are no variables, and all other names denote
what they denote in `s`. -/
structure Installs (s : Symbols φ) (names : List String) (s' : Symbols φ) : Prop where
  limit_eq : s'.limit = s.limit
  eq_of_mem : ∀ x ∈ names, ∃ f : Standard, f.name = x ∧ s'.routine? x = some f.routine ∧
    s'.value? x = none
  eq_of_notMem : ∀ x ∉ names, s'.routine? x = s.routine? x ∧ s'.value? x = s.value? x

theorem installs_putFunctions (s : Symbols φ) (hknown : ¬ Standard.Unknown names) :
    s.Installs names ((names.filterMap Standard.ofName?).foldl
      (fun s f => s.putFunction f.name f.routine) s) := by
  refine ⟨s.limit_putFunctions _, fun x hx => ?_, fun x hx => ?_⟩
  · obtain ⟨f, rfl⟩ : ∃ f : Standard, f.name = x :=
      Classical.byContradiction fun hnone => hknown ⟨x, hx, not_exists.mp hnone⟩
    exact ⟨f, rfl, (putFunctions_of_mem (Standard.mem_filterMap_ofName?.mpr hx) s).symm⟩
  · have hne : ∀ f ∈ names.filterMap Standard.ofName?, f.name ≠ x := by
      rintro f hf rfl
      exact hx (Standard.mem_filterMap_ofName?.mp hf)
    exact ⟨routine?_putFunctions_of_ne hne s, value?_putFunctions_of_ne hne s⟩

end Symbols

namespace InPlace

theorem run_install (names : List String) (s : Symbols φ) :
    (install names).run s = s.commit ((s.install names).map ((), ·)) := by
  by_cases hunknown : Standard.Unknown names
  · have hu := (Standard.unknown_iff names).mp hunknown
    simp only [install, Symbols.install, hu, Bool.not_false, if_true]
    rfl
  · have hu := hunknown
    rw [Standard.unknown_iff, Bool.not_eq_false] at hu
    by_cases hwide : s.TooWide names
    · have hw := (s.tooWide_iff names).mp hwide
      simp only [install, Symbols.install, run_get_bind, hu, hw, Bool.not_true, Bool.not_false,
        Bool.false_eq_true, if_true, if_false]
      cases decimal s.limit <;> rfl
    · -- Both checks are passed: from here on the bindings are made one by one.
      have hw := hwide
      rw [s.tooWide_iff, Bool.not_eq_false] at hw
      have hfs := Symbols.arity_le_of_not_tooWide hwide
      have hinstall : (install names).run s =
          (setStandard (names.filterMap Standard.ofName?)).run s := by
        simp only [install, run_get_bind, hu, hw, Bool.not_true, Bool.false_eq_true, if_false]
      rw [hinstall, run_setStandard hfs, Symbols.install_of_admitted hunknown hwide]
      rfl

end InPlace

/-- An operation that is carried out in place does the same. -/
theorem Operation.run_inPlace (o : Operation φ) (c : Calculator φ ε) :
    o.inPlace.run c.symbols = ((o.perform c).1, (o.perform c).2.symbols) := by
  cases o with
  | bindVariable name value =>
    simp only [inPlace, InPlace.run_bind, InPlace.run_setVariable, perform, Calculator.set]
    cases c.symbols.setVariable name value <;> rfl
  | set name value =>
    simp only [inPlace, InPlace.run_bind, InPlace.run_setVariable, perform, Calculator.set]
    cases c.symbols.setVariable name value <;> rfl
  | bindFunction name offer arity =>
    simp only [inPlace, InPlace.run_bind, InPlace.run_setFunction, perform,
      Calculator.bindFunction]
    cases c.symbols.setFunction name offer arity <;> rfl
  | install names =>
    simp only [inPlace, InPlace.run_bind, InPlace.run_install, perform, Calculator.install]
    cases c.symbols.install (Standard.selected names) <;> rfl
  | unbind name =>
    simp only [inPlace, InPlace.run_bind, InPlace.run_remove, perform, Calculator.unbind]
    rfl

theorem Calculator.eq_of_update_error {β : Type} {c : Calculator φ ε}
    {r : Except Fault (α × Symbols φ)} {f : α → β} {e : Fault}
    (h : (c.update r).1.map f = .error e) : (c.update r).2 = c := by
  cases r with
  | error e => rfl
  | ok r => cases h

theorem Operation.eq_of_perform_error {o : Operation φ} {c : Calculator φ ε} {e : Fault}
    (h : (o.perform c).1 = .error e) : (o.perform c).2 = c := by
  cases o with
  | unbind name => cases h
  | _ => exact Calculator.eq_of_update_error h

namespace Calculator

variable {c : Calculator φ ε} {names : Option (List String)}

theorem install_of_ok {s : Symbols φ}
    (h : c.symbols.install (Standard.selected names) = .ok s) :
    c.install names = (.ok (), { c with symbols := s }) := by
  rw [install, h]
  rfl

theorem install_of_error {e : Fault}
    (h : c.symbols.install (Standard.selected names) = .error e) :
    c.install names = (.error e, c) := by
  rw [install, h]
  rfl

/-- A limit that cannot be shown spoils the message of the refusal. -/
theorem install_of_tooWide (hknown : ¬ Standard.Unknown (Standard.selected names))
    (h : c.symbols.TooWide (Standard.selected names)) :
    (Showable c.symbols.limit ∧ ∃ e, (c.install names).1 = .error (.binding e)) ∨
      ¬ Showable c.symbols.limit ∧ (c.install names).1 = .error .numeralTooLong := by
  obtain ⟨wide, hwide⟩ := Symbols.install_of_tooWide hknown h
  by_cases hshow : Showable c.symbols.limit
  · rw [decimal_of_showable hshow] at hwide
    exact .inl ⟨hshow, _, congrArg Prod.fst (install_of_error hwide)⟩
  · rw [decimal_of_not_showable hshow] at hwide
    exact .inr ⟨hshow, congrArg Prod.fst (install_of_error hwide)⟩

/-- Every operation does what it does in place, and changes nothing if it raises a fault. Standard
functions are refused if and only if a name is unknown or an arity is beyond the limit, with a
binding error unless the limit is too long to be shown in it. Otherwise the names denote standard
functions, and all others what they have denoted. -/
theorem atomic (c : Calculator φ ε) :
    (∀ o : Operation φ, o.inPlace.run c.symbols = ((o.perform c).1, (o.perform c).2.symbols) ∧
      ∀ e, (o.perform c).1 = .error e → (o.perform c).2 = c) ∧
    ∀ names : Option (List String),
      ((∃ e, (c.install names).1 = .error (.binding e)) ↔
        Standard.Unknown (Standard.selected names) ∨
          c.symbols.TooWide (Standard.selected names) ∧ Showable c.symbols.limit) ∧
      ((∃ e, (c.install names).1 = .error e) ↔
        Standard.Unknown (Standard.selected names) ∨
          c.symbols.TooWide (Standard.selected names)) ∧
      (¬ (Standard.Unknown (Standard.selected names) ∨
          c.symbols.TooWide (Standard.selected names)) →
        c.symbols.Installs (Standard.selected names) (c.install names).2.symbols) := by
  refine ⟨fun o => ⟨o.run_inPlace c, fun e he => o.eq_of_perform_error he⟩, fun names => ?_⟩
  by_cases hunknown : Standard.Unknown (Standard.selected names)
  · obtain ⟨e, he⟩ := c.symbols.install_of_unknown hunknown
    rw [install_of_error he]
    exact ⟨iff_of_true ⟨e, rfl⟩ (.inl hunknown), iff_of_true ⟨_, rfl⟩ (.inl hunknown),
      fun hnot => absurd (.inl hunknown) hnot⟩
  · by_cases hwide : c.symbols.TooWide (Standard.selected names)
    · have hrefused := install_of_tooWide hunknown hwide
      refine ⟨⟨fun ⟨e, he⟩ => ?_, fun hor => ?_⟩, iff_of_true ?_ (.inr hwide),
        fun hnot => absurd (.inr hwide) hnot⟩
      · rcases hrefused with ⟨hshow, -⟩ | ⟨-, hlong⟩
        · exact .inr ⟨hwide, hshow⟩
        · cases he.symm.trans hlong
      · rcases hrefused with ⟨-, hbinding⟩ | ⟨hlong, -⟩
        · exact hbinding
        · exact absurd (hor.resolve_left hunknown).2 hlong
      · rcases hrefused with ⟨-, e, he⟩ | ⟨-, he⟩ <;> exact ⟨_, he⟩
    · rw [install_of_ok (Symbols.install_of_admitted hunknown hwide)]
      have hnot := not_or.mpr ⟨hunknown, hwide⟩
      refine ⟨iff_of_false nofun fun hor => hnot (hor.imp_right And.left), iff_of_false nofun hnot,
        fun _ => c.symbols.installs_putFunctions hunknown⟩

end Calculator

def unshowable : Symbols Empty := { limit := -(Nat.pow 10 digitLimit : Nat) }

/-- Where the limit is too long to be shown, standard functions are not refused with a binding
error. -/
theorem install_unshowable :
    ({ limit := -(Nat.pow 10 digitLimit : Nat) } : Configuration).symbols = .ok unshowable ∧
      ¬ ((∃ e, ((Calculator.mk unshowable ()).install (some ["abs"])).1 =
          .error (.binding e)) ↔
        Standard.Unknown ["abs"] ∨ unshowable.TooWide ["abs"]) := by
  refine ⟨rfl, fun hiff => ?_⟩
  have hknown : ¬ Standard.Unknown (Standard.selected (some ["abs"])) := by
    rintro ⟨x, hx, hne⟩
    exact hne .abs (List.mem_singleton.mp hx).symm
  have hnegative : ∀ n : Nat, (-(n : Int)) < 1 := by omega
  have hwide : unshowable.TooWide (Standard.selected (some ["abs"])) :=
    ⟨.abs, List.mem_singleton_self _, hnegative _⟩
  have hlong : ¬ Showable unshowable.limit := by
    rw [Showable, unshowable, Int.natAbs_neg]
    exact not_showable_pow
  obtain ⟨e, he⟩ := hiff.mpr (.inr hwide)
  rcases Calculator.install_of_tooWide (c := ⟨unshowable, ()⟩) hknown hwide with
    ⟨hshow, -⟩ | ⟨-, hfault⟩
  · exact hlong hshow
  · cases he.symm.trans hfault

end Abacus
