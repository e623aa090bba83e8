import Abacus.Proofs.History.Operations

/-!
# Histories

A history is what becomes of a calculator made from a configuration, in the hands of any program
and any callables, which may operate on the calculator in the middle of an evaluation. Its names
denote at any time what the operations that have succeeded by then make them denote, one after the
other, and nothing else of its history matters for what a text evaluates to.
-/
namespace Abacus

variable {φ ε : Type}

/-- What names denote after the operations in a log, the latest first; the ones that have failed
count for nothing. -/
def replay (m : Meanings φ) : List (Entry φ) → Meanings φ
  | [] => m
  | e :: earlier =>
    match e.answer with
    | .ok _ => e.operation.apply (replay m earlier)
    | .error _ => replay m earlier

/-- An operation that has found the given map, and has answered as the map determines. An unbinding
always succeeds. -/
structure Entry.Faithful (e : Entry φ) (limit : Int) (m : Meanings φ) : Prop where
  limit_eq : e.before.limit = limit
  represents : e.before.Represents m
  answer_eq : ∀ r, e.answer = .ok r → r = e.operation.reply m
  unbind_eq : ∀ x, e.operation = .unbind x → e.answer = .ok (.found (m.contains x))

/-- The calculator has come from symbols that represent `m` by the operations in its log. -/
structure Calculator.Faithful (limit : Int) (m : Meanings φ)
    (c : Calculator φ (Logged φ ε)) : Prop where
  limit_eq : c.symbols.limit = limit
  represents : c.symbols.Represents (replay m c.env.log)
  entries : ∀ e earlier, e :: earlier <:+ c.env.log → e.Faithful limit (replay m earlier)

theorem Operation.record_faithful {limit : Int} {m : Meanings φ} (o : Operation φ)
    (c : Calculator φ (Logged φ ε)) (hc : c.Faithful limit m) :
    (o.record c).2.Faithful limit m := by
  have hentries : ∀ answer, (⟨o, answer, c.symbols⟩ : Entry φ).Faithful limit
      (replay m c.env.log) → ∀ e earlier, e :: earlier <:+ ⟨o, answer, c.symbols⟩ :: c.env.log →
        e.Faithful limit (replay m earlier) := by
    intro answer hnew e earlier he
    rcases List.suffix_cons_iff.mp he with heq | he
    · obtain ⟨rfl, rfl⟩ := List.cons.inj heq
      exact hnew
    · exact hc.entries e earlier he
  rcases o.perform_cases c hc.represents with ⟨f, hf⟩ | ⟨s, hs, hlimit, hrepresents⟩
  · rw [record, hf]
    refine ⟨hc.limit_eq, hc.represents, hentries (.error f) ⟨hc.limit_eq, hc.represents, ?_, ?_⟩⟩
    · intro r hr
      cases hr
    · intro x hx
      obtain rfl : o = .unbind x := hx
      cases hf
  · rw [record, hs]
    refine ⟨hlimit.trans hc.limit_eq, hrepresents,
      hentries (.ok _) ⟨hc.limit_eq, hc.represents, ?_, ?_⟩⟩
    · intro r hr
      exact (Except.ok.inj hr).symm
    · intro x hx
      obtain rfl : o = .unbind x := hx
      rfl

theorem Calculator.store_faithful {limit : Int} {m : Meanings φ}
    (c : Calculator φ (Logged φ ε)) (env : ε) (hc : c.Faithful limit m) :
    (c.store env).Faithful limit m := ⟨hc.limit_eq, hc.represents, hc.entries⟩

def Configuration.meanings (c : Configuration) : Meanings φ :=
  c.bindings.foldl (fun m b => (Operation.set (.text b.1) b.2).apply m) ∅

theorem Symbols.represents_foldlM (bs : List (String × Datum)) {s₀ s : Symbols φ}
    {m : Meanings φ} (hm : s₀.Represents m)
    (hs : bs.foldlM (fun s b => do return (← s.setVariable (.text b.1) b.2).2) s₀ = .ok s) :
    s.limit = s₀.limit ∧
      s.Represents (bs.foldl (fun m b => (Operation.set (.text b.1) b.2).apply m) m) := by
  induction bs generalizing s₀ m with
  | nil =>
    obtain rfl := Except.ok.inj hs
    exact ⟨rfl, hm⟩
  | cons b bs ih =>
    rw [List.foldlM_cons] at hs
    rcases s₀.setVariable_cases (.text b.1) b.2 with ⟨e, he⟩ | ⟨x, n, -, hx, hn, hok⟩
    · rw [he] at hs
      cases hs
    · rw [hok] at hs
      obtain rfl : b.1 = x := Datum.text.inj hx
      obtain ⟨hlimit, hrepresents⟩ := ih (hm.putVariable b.1 n) hs
      rw [List.foldl_cons, hn]
      exact ⟨hlimit, hrepresents⟩

theorem Configuration.represents_symbols {c : Configuration} {s : Symbols φ}
    (hs : c.symbols = .ok s) : s.limit = c.limit ∧ s.Represents c.meanings :=
  Symbols.represents_foldlM c.bindings (Symbols.represents_empty c.limit) hs

/-- What becomes of a calculator: the configuration that it is made from, the program that works
with it, and what the callables do that are bound, which may call one another to some depth. -/
structure History (φ : Type) where
  State : Type
  configuration : Configuration
  initial : Symbols φ
  symbols_eq : configuration.symbols = .ok initial
  behaviour : Behaviour φ State
  depth : Nat
  start : State
  program : Program φ State Unit

namespace History

def result (t : History φ) : Calculator φ (Logged φ t.State) :=
  (t.program.run (t.behaviour.host t.depth) ⟨t.initial, { env := t.start }⟩).2

def log (t : History φ) : List (Entry φ) := t.result.env.log

def meanings (t : History φ) : Meanings φ := replay t.configuration.meanings t.log

theorem faithful (t : History φ) :
    t.result.Faithful t.configuration.limit t.configuration.meanings := by
  obtain ⟨hlimit, hrepresents⟩ := Configuration.represents_symbols t.symbols_eq
  have hinitial : (⟨t.initial, { env := t.start }⟩ : Calculator φ (Logged φ t.State)).Faithful
      t.configuration.limit t.configuration.meanings := by
    refine ⟨hlimit, hrepresents, fun e earlier he => ?_⟩
    cases List.suffix_nil.mp he
  have hhost : (t.behaviour.host t.depth).Preserves
      (Calculator.Faithful t.configuration.limit t.configuration.meanings) :=
    Behaviour.host_preserves Operation.record_faithful Calculator.store_faithful _ _
  exact Program.run_preserves Operation.record_faithful Calculator.store_faithful hhost t.program
    hinitial

/-- After any history, the two tables are one map from names to what they denote: the map that the
operations which have succeeded make, in their order. Each of them has found its own map and has
answered as this map determines. Histories with the same map and limit are the same for whatever
is evaluated behind them, by any host. -/
theorem tables_eq_replay (t : History φ) :
    t.result.symbols.Represents t.meanings ∧
      t.result.symbols.limit = t.configuration.limit ∧
      (∀ e earlier, e :: earlier <:+ t.log →
        e.Faithful t.configuration.limit (replay t.configuration.meanings earlier)) ∧
      ∀ t' : History φ, t'.meanings = t.meanings →
        t'.configuration.limit = t.configuration.limit →
        ∀ (ε : Type) (h : Host φ ε) (env : ε) (expr : Datum),
          (Calculator.mk t'.result.symbols env).eval h expr =
            (Calculator.mk t.result.symbols env).eval h expr := by
  have ht := t.faithful
  refine ⟨ht.represents, ht.limit_eq, ht.entries, ?_⟩
  intro t' hmeanings hlimit ε h env expr
  have ht' := t'.faithful
  have hrepresents : t'.result.symbols.Represents t.meanings := hmeanings ▸ ht'.represents
  have hsymbols : t'.result.symbols = t.result.symbols :=
    hrepresents.eq_of_limit ht.represents (ht'.limit_eq.trans (hlimit.trans ht.limit_eq.symm))
  rw [hsymbols]

def overwriting : History Unit where
  State := Option (Except Fault Reply)
  configuration := {}
  initial := {}
  symbols_eq := rfl
  behaviour _ args c := .request c.env (.operate (.set (.text "f") (.int 7))) fun _ c =>
    .pure c.env (.ok (.int (args.headD 0)))
  depth := 1
  start := none
  program :=
    .request none (.operate (.bindFunction (.text "f")
      (.callable { handle := (), shown := "f" }) (some 1))) fun _ _ =>
    .request none (.eval (.text "f(1) + f")) fun answer _ => .pure (some answer) ()

example : overwriting.result.env.env = some (.ok (.outcome ⟨.value 8, none⟩)) := rfl

end History

end Abacus
