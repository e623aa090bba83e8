import Abacus.Proofs.Evaluation.Naming
import Abacus.Proofs.History.Atomicity

/-!
# Admission of configurations

`Admissible` says which data make a configuration, in terms of what a calculator accepts. They are
the data that are read without a fault; of the others a configuration error is raised, unless what
is refused contains a number that is too long to be shown. A calculator made from the configuration
has the limit and the variables of the data, and nothing else of the data matters
(`calculator_of_data`).
-/
namespace Abacus

theorem eq_tooLong_of_decimal {n : Int} {f : Fault} (h : decimal n = .error f) :
    f = .numeralTooLong := by
  unfold decimal at h
  split at h
  · cases h
  · exact (Except.error.inj h).symm

theorem error_of_bind {α β : Type} {r : Except Fault α} {g : α → Except Fault β} {f : Fault}
    (h : r >>= g = .error f) : r = .error f ∨ ∃ a, r = .ok a ∧ g a = .error f := by
  cases r with
  | error e =>
    obtain rfl : e = f := Except.error.inj h
    exact .inl rfl
  | ok a => exact .inr ⟨a, rfl, h⟩

namespace Datum

mutual

/-- A datum cannot be shown for one reason only. -/
theorem eq_tooLong_of_shown (d : Datum) {f : Fault} (h : d.shown = .error f) :
    f = .numeralTooLong := by
  cases d with
  | int n => exact eq_tooLong_of_decimal h
  | list items =>
    rcases error_of_bind h with h | ⟨texts, -, h⟩
    · exact eq_tooLong_of_shownItems items h
    · cases h
  | dict entries =>
    rcases error_of_bind h with h | ⟨texts, -, h⟩
    · exact eq_tooLong_of_shownEntries entries h
    · cases h
  | _ => cases h

theorem eq_tooLong_of_shownItems (ds : List Datum) {f : Fault} (h : shownItems ds = .error f) :
    f = .numeralTooLong := by
  cases ds with
  | nil => cases h
  | cons d ds =>
    rcases error_of_bind h with h | ⟨text, -, h⟩
    · exact eq_tooLong_of_shown d h
    · rcases error_of_bind h with h | ⟨texts, -, h⟩
      · exact eq_tooLong_of_shownItems ds h
      · cases h

theorem eq_tooLong_of_shownEntries (ds : List (Datum × Datum)) {f : Fault}
    (h : shownEntries ds = .error f) : f = .numeralTooLong := by
  cases ds with
  | nil => cases h
  | cons e ds =>
    obtain ⟨key, d⟩ := e
    rcases error_of_bind h with h | ⟨name, -, h⟩
    · exact eq_tooLong_of_shown key h
    · rcases error_of_bind h with h | ⟨text, -, h⟩
      · exact eq_tooLong_of_shown d h
      · rcases error_of_bind h with h | ⟨texts, -, h⟩
        · exact eq_tooLong_of_shownEntries ds h
        · cases h

end

end Datum

namespace Configuration

variable {φ ε : Type} {data : List (String × Datum)}

def entriesAt (key : String) (data : List (String × Datum)) : List (Datum × Datum) :=
  match data.lookup key with
  | some (.dict entries) => entries
  | _ => []

def IsTable (key : String) (data : List (String × Datum)) : Prop :=
  ∀ d, data.lookup key = some d → ∃ entries, d = .dict entries

/-- The data make a configuration: both tables may be absent, and the limit may be; a limit has to
be an integer that is not negative, and every variable has to be one that can be bound. -/
structure Admissible (data : List (String × Datum)) : Prop where
  settings_table : IsTable "calculator" data
  variables_table : IsTable "variables" data
  limit : ∀ d, Datum.entry? "max_arg_num" (entriesAt "calculator" data) = some d →
    ∃ n : Nat, d = .int n
  bindings : ∀ b ∈ entriesAt "variables" data, ∀ {φ : Type} (s : Symbols φ),
    ∃ r, s.setVariable b.1 b.2 = .ok r

/-- A datum that is the name or the value of a variable and cannot be. -/
def Misplaced (entry : Datum × Datum) (d : Datum) : Prop :=
  (d = entry.1 ∧ ¬ ∃ x, d = .text x ∧ isName x) ∨ d = entry.2 ∧ ¬ ∃ n, d = .int n

def Refused (data : List (String × Datum)) (d : Datum) : Prop :=
  (Datum.entry? "max_arg_num" (entriesAt "calculator" data) = some d ∧ ¬ ∃ n : Nat, d = .int n) ∨
    ∃ entry ∈ entriesAt "variables" data, Misplaced entry d

/-- The fault of a refusal: a configuration error, or that a refused datum cannot be shown. -/
def Refuses (p : Datum → Prop) (f : Fault) : Prop :=
  (∃ e, f = .configuration e) ∨
    f = .numeralTooLong ∧ ∃ d, p d ∧ d.shown = .error .numeralTooLong

theorem Refuses.imp {p q : Datum → Prop} (hpq : ∀ d, p d → q d) {f : Fault}
    (h : Refuses p f) : Refuses q f := by
  rcases h with h | ⟨hf, d, hd, hshown⟩
  · exact .inl h
  · exact .inr ⟨hf, d, hpq d hd, hshown⟩

theorem exists_error_of_throw {α : Type} {p : Datum → Prop} {d : Datum} (hd : p d)
    (g : String → ConfigurationError) :
    ∃ f, (do throw (.configuration (g (← d.shown))) : Except Fault α) = .error f ∧
      Refuses p f := by
  cases hshown : d.shown with
  | error f =>
    obtain rfl := d.eq_tooLong_of_shown hshown
    exact ⟨_, rfl, .inr ⟨rfl, d, hd, hshown⟩⟩
  | ok text => exact ⟨_, rfl, .inl ⟨g text, rfl⟩⟩

theorem table_cases (key : String) (data : List (String × Datum)) :
    (IsTable key data ∧ table key data = .ok (entriesAt key data)) ∨
      ¬ IsTable key data ∧ table key data = .error (.configuration (.notTable key)) := by
  unfold IsTable table entriesAt
  cases data.lookup key with
  | none => exact .inl ⟨nofun, rfl⟩
  | some d =>
    cases d with
    | dict entries => exact .inl ⟨fun _ hd => ⟨entries, (Option.some.inj hd).symm⟩, rfl⟩
    | _ =>
      refine .inr ⟨fun h => ?_, rfl⟩
      obtain ⟨entries, he⟩ := h _ rfl
      cases he

theorem checkLimit_cases (d : Datum) :
    (∃ n : Nat, d = .int n ∧ checkLimit d = .ok n) ∨
      (¬ ∃ n : Nat, d = .int n) ∧ ∃ f, checkLimit d = .error f ∧ Refuses (· = d) f := by
  by_cases hd : ∃ n : Nat, d = .int n
  · obtain ⟨n, rfl⟩ := hd
    exact .inl ⟨n, rfl, rfl⟩
  · refine .inr ⟨hd, ?_⟩
    unfold checkLimit
    split
    · next n => exact absurd ⟨n, rfl⟩ hd
    · exact exists_error_of_throw (p := (· = d)) rfl .invalidLimit

theorem readName_of_ne_text {key : Datum} (hkey : ∀ x, key ≠ .text x) :
    readName key =
      (do throw (.configuration (.variableName (.invalidName (← key.shown))))) := by
  have hcheck : checkName key = (do throw (.binding (.invalidName (← key.shown)))) := by
    cases key with
    | text x => exact absurd rfl (hkey x)
    | _ => rfl
  rw [readName, hcheck]
  cases hshown : key.shown with
  | error f =>
    obtain rfl := key.eq_tooLong_of_shown hshown
    rfl
  | ok text => rfl

theorem readName_text {x : String} (hx : isName x) : readName (.text x) = .ok x := by
  rw [readName, checkName_text_iff.mpr hx]
  rfl

theorem readName_cases (key : Datum) :
    (∃ x, key = .text x ∧ isName x) ∨
      (¬ ∃ x, key = .text x ∧ isName x) ∧
        ∃ f, readName key = .error f ∧ Refuses (· = key) f := by
  by_cases htext : ∃ x, key = .text x
  · obtain ⟨x, rfl⟩ := htext
    by_cases hx : isName x
    · exact .inl ⟨x, rfl, hx⟩
    · refine .inr ⟨?_, .configuration (.variableName (.invalidName (quoted x))), ?_, .inl ⟨_, rfl⟩⟩
      · rintro ⟨y, hy, hname⟩
        obtain rfl := Datum.text.inj hy
        exact hx hname
      · rw [readName, checkName, if_neg hx]
        rfl
  · refine .inr ⟨?_, ?_⟩
    · rintro ⟨x, hx, -⟩
      exact htext ⟨x, hx⟩
    · rw [readName_of_ne_text fun x hx => htext ⟨x, hx⟩]
      exact exists_error_of_throw (p := (· = key)) rfl _

theorem readVariable_of_name {x : String} (hx : isName x) {d : Datum} (hd : ¬ ∃ n, d = .int n) :
    readVariable (.text x, d) =
      (do throw (.configuration (.variableValue (quoted x) (← d.shown)))) := by
  rw [readVariable, readName_text hx]
  cases d with
  | int n => exact absurd ⟨n, rfl⟩ hd
  | _ => rfl

theorem readVariable_cases (entry : Datum × Datum) :
    (∃ x n, isName x ∧ entry = (.text x, .int n) ∧ readVariable entry = .ok (x, .int n)) ∨
      (¬ ∃ x n, isName x ∧ entry = (.text x, .int n)) ∧
        ∃ f, readVariable entry = .error f ∧ Refuses (Misplaced entry) f := by
  obtain ⟨key, d⟩ := entry
  rcases readName_cases key with ⟨x, rfl, hx⟩ | ⟨hnot, f, herror, hf⟩
  · by_cases hd : ∃ n, d = .int n
    · obtain ⟨n, rfl⟩ := hd
      refine .inl ⟨x, n, hx, rfl, ?_⟩
      rw [readVariable, readName_text hx]
      rfl
    · refine .inr ⟨?_, ?_⟩
      · rintro ⟨y, n, -, h⟩
        exact hd ⟨n, congrArg Prod.snd h⟩
      · rw [readVariable_of_name hx hd]
        exact exists_error_of_throw (.inr ⟨rfl, hd⟩) _
  · refine .inr ⟨?_, f, ?_, hf.imp ?_⟩
    · rintro ⟨x, n, hx, h⟩
      exact hnot ⟨x, congrArg Prod.fst h, hx⟩
    · rw [readVariable, herror]
      rfl
    · rintro _ rfl
      exact .inl ⟨rfl, hnot⟩

def integerEntries (bs : List (String × Int)) : List (Datum × Datum) :=
  bs.map fun b => (.text b.1, .int b.2)

/-- Variables are read one after the other, up to the first that is refused. -/
theorem readVariables_cases (entries : List (Datum × Datum)) :
    (∃ bs : List (String × Int), (∀ b ∈ bs, isName b.1) ∧ entries = integerEntries bs ∧
        entries.mapM readVariable = .ok (bs.map fun b => (b.1, .int b.2))) ∨
      (∃ entry ∈ entries, ¬ ∃ x n, isName x ∧ entry = (.text x, .int n)) ∧
        ∃ f, entries.mapM readVariable = .error f ∧
          Refuses (fun d => ∃ entry ∈ entries, Misplaced entry d) f := by
  induction entries with
  | nil => exact .inl ⟨[], List.forall_mem_nil _, rfl, rfl⟩
  | cons entry entries ih =>
    rw [List.mapM_cons]
    rcases readVariable_cases entry with ⟨x, n, hx, rfl, hok⟩ | ⟨hnot, f, herror, hf⟩
    · rw [hok]
      rcases ih with ⟨bs, hbs, rfl, hok⟩ | ⟨⟨entry, hentry, hnot⟩, f, herror, hf⟩
      · rw [hok]
        exact .inl ⟨(x, n) :: bs, List.forall_mem_cons.mpr ⟨hx, hbs⟩, rfl, rfl⟩
      · rw [herror]
        refine .inr ⟨⟨entry, List.mem_cons_of_mem _ hentry, hnot⟩, f, rfl, hf.imp ?_⟩
        rintro d ⟨e, he, hd⟩
        exact ⟨e, List.mem_cons_of_mem _ he, hd⟩
    · rw [herror]
      exact .inr ⟨⟨entry, List.mem_cons_self, hnot⟩, f, rfl,
        hf.imp fun d hd => ⟨entry, List.mem_cons_self, hd⟩⟩

theorem readLimit_cases (entries : List (Datum × Datum)) :
    (∃ n : Nat, (Datum.entry? "max_arg_num" entries).getD (.int defaultLimit) = .int n ∧
        readLimit entries = .ok n) ∨
      ∃ d, Datum.entry? "max_arg_num" entries = some d ∧ (¬ ∃ n : Nat, d = .int n) ∧
        ∃ f, readLimit entries = .error f ∧ Refuses (· = d) f := by
  unfold readLimit
  cases hd : Datum.entry? "max_arg_num" entries with
  | none => exact .inl ⟨4, rfl, rfl⟩
  | some d =>
    rcases checkLimit_cases d with ⟨n, rfl, hok⟩ | ⟨hnot, f, herror, hf⟩
    · exact .inl ⟨n, rfl, hok⟩
    · exact .inr ⟨d, rfl, hnot, f, herror, hf⟩

theorem eval_name (h : Host φ ε) {c : Calculator φ ε} {x : String} (hx : isName x) {n : Int}
    (hn : c.symbols.value? x = some n) : c.eval h (.text x) = (.ok ⟨.value n, none⟩, c) := by
  have hblank : ∀ ch ∈ "".toList, isBlank ch := List.forall_mem_nil _
  simpa using Formula.eval_variable h (x := ⟨x, hx⟩) hn hblank hblank

/-- What a calculator would accept is a proper name with an integer. -/
theorem accepted_iff {name value : Datum} :
    (∀ {φ : Type} (s : Symbols φ), ∃ r, s.setVariable name value = .ok r) ↔
      ∃ x n, isName x ∧ (name, value) = (.text x, .int n) := by
  constructor
  · intro h
    obtain ⟨r, hr⟩ := h ({} : Symbols Empty)
    rcases ({} : Symbols Empty).setVariable_cases name value with ⟨e, he⟩ | ⟨x, n, hx, rfl, rfl, -⟩
    · cases he.symm.trans hr
    · exact ⟨x, n, hx, rfl⟩
  · rintro ⟨x, n, hx, h⟩ φ s
    obtain ⟨rfl, rfl⟩ := Prod.mk.inj h
    exact ⟨_, s.setVariable_text hx n⟩

def ofTables (settings entries : List (Datum × Datum)) : Except Fault Configuration :=
  readLimit settings >>= fun limit =>
    entries.mapM readVariable >>= fun bindings => .ok { limit, bindings }

theorem ofData_eq_ofTables {settings entries : List (Datum × Datum)}
    (hsettings : table "calculator" data = .ok settings)
    (hentries : table "variables" data = .ok entries) :
    ofData data = ofTables settings entries := by
  unfold ofData
  rw [hsettings, hentries]
  rfl

/-- Data are read as a configuration with their limit and their variables, or are refused. -/
theorem ofData_cases (data : List (String × Datum)) :
    (Admissible data ∧ ∃ (n : Nat) (bs : List (String × Int)),
        (Datum.entry? "max_arg_num" (entriesAt "calculator" data)).getD (.int defaultLimit) =
            .int n ∧
          (∀ b ∈ bs, isName b.1) ∧ entriesAt "variables" data = integerEntries bs ∧
          ofData data = .ok ⟨n, bs.map fun b => (b.1, .int b.2)⟩) ∨
      ¬ Admissible data ∧ ∃ f, ofData data = .error f ∧ Refuses (Refused data) f := by
  rcases table_cases "calculator" data with ⟨hsettings, hcalculator⟩ | ⟨hnot, herror⟩
  · rcases table_cases "variables" data with ⟨htable, hvariables⟩ | ⟨hnot, herror⟩
    · rw [ofData_eq_ofTables hcalculator hvariables, ofTables]
      rcases readLimit_cases (entriesAt "calculator" data) with
        ⟨n, hn, hok⟩ | ⟨d, hd, hnot, f, herror, hf⟩
      · rw [hok]
        rcases readVariables_cases (entriesAt "variables" data) with
          ⟨bs, hbs, hentries, hok⟩ | ⟨⟨entry, hentry, hnot⟩, f, herror, hf⟩
        · rw [hok]
          refine .inl ⟨⟨hsettings, htable, fun d hd => ?_, fun b hb => ?_⟩, n, bs, hn, hbs,
            hentries, rfl⟩
          · rw [hd] at hn
            exact ⟨n, hn⟩
          · rw [hentries] at hb
            obtain ⟨⟨x, m⟩, hx, rfl⟩ := List.mem_map.mp hb
            exact accepted_iff.mpr ⟨x, m, hbs _ hx, rfl⟩
        · rw [herror]
          refine .inr ⟨fun h => hnot (accepted_iff.mp (h.bindings entry hentry)), f, rfl, ?_⟩
          exact hf.imp fun d hd => .inr hd
      · rw [herror]
        refine .inr ⟨fun h => hnot (h.limit d hd), f, rfl, hf.imp ?_⟩
        rintro _ rfl
        exact .inl ⟨hd, hnot⟩
    · unfold ofData
      rw [hcalculator, herror]
      exact .inr ⟨fun h => hnot h.variables_table, _, rfl, .inl ⟨_, rfl⟩⟩
  · unfold ofData
    rw [herror]
    exact .inr ⟨fun h => hnot h.settings_table, _, rfl, .inl ⟨_, rfl⟩⟩

/-- Variables that are bound one after the other, to integers and by proper names. -/
theorem exists_of_accepted {bs : List (String × Int)} (hbs : ∀ b ∈ bs, isName b.1)
    (s₀ : Symbols φ) :
    ∃ s, (bs.map fun b => (b.1, Datum.int b.2)).foldlM
        (fun s b => do return (← s.setVariable (.text b.1) b.2).2) s₀ = .ok s ∧
      s.limit = s₀.limit ∧ (∀ x, s₀.routine? x = none → s.routine? x = none) ∧
      ((bs.map Prod.fst).Nodup → ∀ x n, s.value? x = some n ↔
        (x, n) ∈ bs ∨ x ∉ bs.map Prod.fst ∧ s₀.value? x = some n) := by
  induction bs generalizing s₀ with
  | nil => exact ⟨s₀, rfl, rfl, fun _ h => h, fun _ x n => by simp⟩
  | cons b bs ih =>
    obtain ⟨hname, hrest⟩ := List.forall_mem_cons.mp hbs
    obtain ⟨x, m⟩ := b
    obtain ⟨s, hs, hlimit, hroutine, hvalue⟩ := ih hrest (s₀.putVariable x m)
    refine ⟨s, ?_, hlimit, fun y hy => hroutine y ?_, fun hnodup y n => ?_⟩
    · rw [List.map_cons, List.foldlM_cons, s₀.setVariable_text hname]
      exact hs
    · rw [Symbols.routine?_putVariable, hy, ite_self]
    · rw [List.map_cons, List.nodup_cons] at hnodup
      rw [hvalue hnodup.2, Symbols.value?_putVariable]
      by_cases hxy : x = y
      · subst hxy
        have hmem : (x, n) ∉ bs := fun h => hnodup.1 (List.mem_map.mpr ⟨_, h, rfl⟩)
        simp [hmem, hnodup.1, eq_comm]
      · have hyx : ¬ y = x := fun h => hxy h.symm
        simp [hxy, hyx]

theorem mem_integerEntries {bs : List (String × Int)} {x : String} {n : Int} :
    (.text x, .int n) ∈ integerEntries bs ↔ (x, n) ∈ bs := by
  have hinjective : Function.Injective fun b : String × Int => (Datum.text b.1, Datum.int b.2) := by
    rintro ⟨x, n⟩ ⟨y, m⟩ h
    obtain ⟨hx, hn⟩ := Prod.mk.inj h
    exact Prod.ext (Datum.text.inj hx) (Datum.int.inj hn)
  exact List.mem_map_of_injective (a := (x, n)) hinjective

theorem nodup_of_integerEntries {bs : List (String × Int)}
    (h : ((integerEntries bs).map Prod.fst).Nodup) : (bs.map Prod.fst).Nodup := by
  refine List.Nodup.of_map Datum.text ?_
  rw [integerEntries, List.map_map] at h
  rw [List.map_map]
  exact h

/-- What the data give for the limit, which may be nothing; `none` if the settings are no table. -/
def limitAt (data : List (String × Datum)) : Option (Option Datum) :=
  match data.lookup "calculator" with
  | none => some none
  | some (.dict entries) => some (Datum.entry? "max_arg_num" entries)
  | some _ => none

theorem limitAt_cases (data : List (String × Datum)) :
    (limitAt data = none ∧
        table "calculator" data = .error (.configuration (.notTable "calculator"))) ∨
      ∃ settings, limitAt data = some (Datum.entry? "max_arg_num" settings) ∧
        table "calculator" data = .ok settings := by
  unfold limitAt table
  cases data.lookup "calculator" with
  | none => exact .inr ⟨[], rfl, rfl⟩
  | some d =>
    cases d with
    | dict entries => exact .inr ⟨entries, rfl, rfl⟩
    | _ => exact .inl ⟨rfl, rfl⟩

/-- Nothing but the limit and the variables matters. -/
theorem ofData_congr {data' : List (String × Datum)} (hlimit : limitAt data' = limitAt data)
    (hvariables : data'.lookup "variables" = data.lookup "variables") :
    ofData data' = ofData data := by
  have htable : table "variables" data' = table "variables" data := by
    unfold table
    rw [hvariables]
  unfold ofData
  rw [htable]
  rcases limitAt_cases data with ⟨hnone, herror⟩ | ⟨settings, hsome, hok⟩
  · rcases limitAt_cases data' with ⟨-, herror'⟩ | ⟨settings', hsome', -⟩
    · rw [herror, herror']
    · cases hsome'.symm.trans (hlimit.trans hnone)
  · rcases limitAt_cases data' with ⟨hnone', -⟩ | ⟨settings', hsome', hok'⟩
    · cases hnone'.symm.trans (hlimit.trans hsome)
    · have hentry : Datum.entry? "max_arg_num" settings' = Datum.entry? "max_arg_num" settings :=
        Option.some.inj (hsome'.symm.trans (hlimit.trans hsome))
      have hread : readLimit settings' = readLimit settings := by
        unfold readLimit
        rw [hentry]
      rw [hok, hok']
      change (table "variables" data >>= fun entries => readLimit settings' >>= _) =
        (table "variables" data >>= fun entries => readLimit settings >>= _)
      rw [hread]

/-- Data are read if and only if they make a configuration, and are refused otherwise with a
configuration error, unless what is refused cannot be shown. From a configuration that is read, a
calculator is made without a fault: it has no function, the limit that is given, or else 4, and
exactly the variables that are given, each of which stands for its value. Whatever else the data
hold has no influence. -/
theorem calculator_of_data (h : Host φ ε) (env : ε) (data : List (String × Datum)) :
    ((∃ c, ofData data = .ok c) ↔ Admissible data) ∧
    (¬ Admissible data → ∃ f, ofData data = .error f ∧ Refuses (Refused data) f) ∧
    (∀ c, ofData data = .ok c → ∃ s : Symbols φ, c.symbols = .ok s ∧
      (Datum.entry? "max_arg_num" (entriesAt "calculator" data)).getD (.int 4) =
        .int s.limit ∧
      (∀ x, s.routine? x = none) ∧
      (((entriesAt "variables" data).map Prod.fst).Nodup → ∀ x n,
        (s.value? x = some n ↔ (.text x, .int n) ∈ entriesAt "variables" data) ∧
        ((.text x, .int n) ∈ entriesAt "variables" data →
          (Calculator.mk s env).eval h (.text x) = (.ok ⟨.value n, none⟩, ⟨s, env⟩)))) ∧
    ∀ data' : List (String × Datum), limitAt data' = limitAt data →
      data'.lookup "variables" = data.lookup "variables" → ofData data' = ofData data := by
  refine ⟨?_, ?_, ?_, fun data' hlimit hvariables => ofData_congr hlimit hvariables⟩
  · rcases ofData_cases data with ⟨hdata, n, bs, -, -, -, hok⟩ | ⟨hnot, f, herror, -⟩
    · exact iff_of_true ⟨_, hok⟩ hdata
    · refine iff_of_false ?_ hnot
      rintro ⟨c, hc⟩
      cases herror.symm.trans hc
  · intro hnot
    rcases ofData_cases data with ⟨hdata, -⟩ | ⟨-, hf⟩
    · exact absurd hdata hnot
    · exact hf
  · intro c hc
    rcases ofData_cases data with ⟨-, k, bs, hk, hbs, hentries, hok⟩ | ⟨-, f, herror, -⟩
    · obtain rfl := Except.ok.inj (hok.symm.trans hc)
      obtain ⟨s, hs, hlimit, hroutine, hvalue⟩ :=
        exists_of_accepted hbs ({ limit := k } : Symbols φ)
      have hnone : ∀ x, ({ limit := k } : Symbols φ).value? x = none := fun _ => rfl
      refine ⟨s, hs, ?_, fun x => hroutine x rfl, fun hnodup x n => ?_⟩
      · rw [hlimit]
        exact hk
      · rw [hentries] at hnodup ⊢
        have hx : s.value? x = some n ↔ (x, n) ∈ bs := by
          rw [hvalue (nodup_of_integerEntries hnodup), hnone]
          simp
        refine ⟨hx.trans mem_integerEntries.symm, fun hmem => ?_⟩
        have hmem := mem_integerEntries.mp hmem
        exact eval_name h (hbs _ hmem) (hx.mpr hmem)
    · cases herror.symm.trans hc

def listData (n : Int) : List (String × Datum) :=
  [("variables", .dict [(.text "x", .list [.int n])])]

theorem not_admissible_listData (n : Int) : ¬ Admissible (listData n) := by
  intro hdata
  obtain ⟨x, m, -, h⟩ :=
    accepted_iff.mp (hdata.bindings (.text "x", .list [.int n]) List.mem_cons_self)
  cases h

theorem ofData_listData {n : Int} (hn : ¬ Showable n) :
    ofData (listData n) = .error .numeralTooLong := by
  have hshown : (Datum.list [.int n]).shown = .error .numeralTooLong := by
    simp only [Datum.shown, Datum.shownItems, decimal_of_not_showable hn]
    rfl
  have hname : isName "x" = true := rfl
  have hlist : ¬ ∃ m, Datum.list [.int n] = .int m := by simp
  have hread : readVariable (.text "x", .list [.int n]) = .error .numeralTooLong := by
    rw [readVariable_of_name hname hlist, hshown]
    rfl
  have hsettings : table "calculator" (listData n) = .ok [] := rfl
  have hentries : table "variables" (listData n) = .ok [(.text "x", .list [.int n])] := rfl
  rw [ofData_eq_ofTables hsettings hentries, ofTables, List.mapM_cons, hread]
  rfl

theorem ofData_listData_ne {n : Int} (hn : ¬ Showable n) (e : ConfigurationError) :
    ofData (listData n) ≠ .error (.configuration e) := by
  rw [ofData_listData hn]
  exact nofun

/-- Data that make no configuration are not refused with a configuration error if what is refused
is too long to be shown. -/
theorem ofData_unshowable :
    ¬ (¬ Admissible (listData (Nat.pow 10 digitLimit : Nat)) →
      ∃ e, ofData (listData (Nat.pow 10 digitLimit : Nat)) = .error (.configuration e)) := by
  intro himp
  obtain ⟨e, he⟩ := himp (not_admissible_listData _)
  exact ofData_listData_ne not_showable_pow e he

end Configuration

end Abacus
