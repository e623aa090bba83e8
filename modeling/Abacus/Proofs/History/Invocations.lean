import Abacus.Proofs.Evaluation.Arity
import Abacus.Proofs.History.Replay
import Abacus.Proofs.History.WellFormed

/-!
# The calls in a history

A history comes to many programs: its own, as it goes on after each request, and those of the
callables that are called while a request is served, to any depth. The symbols that a program finds
are well-formed, and so are those in which a routine is called. The call passes as many arguments as
the routine takes, which are not more than the limit admits (`History.calls_fit`).
-/
namespace Abacus

variable {φ ε : Type}

structure Formula.Call.Fits (limit : Int) (y : Formula.Call φ) : Prop where
  length_eq : y.args.length = y.routine.arity
  length_le : y.args.length ≤ limit

/-- A request makes the call `y` with the symbols `s`; its callable finds the calculator `c₁`. -/
inductive Request.Makes (h : Host φ (Logged φ ε)) (c : Calculator φ (Logged φ ε))
    (y : Formula.Call φ) : Request φ → Symbols φ → Calculator φ (Logged φ ε) → Prop
  | eval {t : String} {c₁ : Calculator φ (Logged φ ε)}
      (hy : Formula.Makes h c t.toList y c₁) : Makes h c y (.eval (.text t)) c₁.symbols c₁
  | evaluate {t : String} {c₁ : Calculator φ (Logged φ ε)}
      (hy : Formula.Makes h c t.toList y c₁) : Makes h c y (.evaluate (.text t)) c₁.symbols c₁
  | evaluateOnce {t : String} {bindings : List (String × Datum)}
      {functions : List (String × Offer φ)} {s : Symbols φ}
      {c₁ : Calculator φ (Calculator φ (Logged φ ε))}
      (hs : Symbols.ofBindings bindings functions = .ok s)
      (hy : Formula.Makes h.detached ⟨s, c⟩ t.toList y c₁) :
      Makes h c y (.evaluateOnce (.text t) bindings functions) c₁.symbols c₁.env

/-- The programs that a history comes to, each with the depth to which the callables that it calls
may call one another, and with the calculator that it finds: the program that the history starts
with, what is left of a program after a request, and the program of a callable that is called
while a request is served. -/
inductive History.Reaches (t : History φ) :
    Nat → ∀ {α : Type}, Program φ t.State α → Calculator φ (Logged φ t.State) → Prop
  | start : Reaches t t.depth t.program ⟨t.initial, { env := t.start }⟩
  | next {n : Nat} {α : Type} {env : t.State} {r : Request φ}
      {next : Except Fault Reply → Calculator φ t.State → Program φ t.State α}
      {c : Calculator φ (Logged φ t.State)} (h : Reaches t n (.request env r next) c) :
      Reaches t n
        (next (r.serve (t.behaviour.host n) (c.store env)).1
          (r.serve (t.behaviour.host n) (c.store env)).2.visible)
        (r.serve (t.behaviour.host n) (c.store env)).2
  | call {n : Nat} {α : Type} {env : t.State} {r : Request φ}
      {next : Except Fault Reply → Calculator φ t.State → Program φ t.State α}
      {c c₁ : Calculator φ (Logged φ t.State)} {y : Formula.Call φ} {s : Symbols φ}
      {f : Callable φ} (h : Reaches t (n + 1) (.request env r next) c)
      (hy : r.Makes (t.behaviour.host (n + 1)) (c.store env) y s c₁)
      (hf : y.routine.code = .callable f) :
      Reaches t n (t.behaviour f.handle y.args c₁.visible) c₁

theorem Host.Preserves.detached_symbols {h : Host φ ε} {P : Calculator φ ε → Prop}
    (hP : h.Preserves P) (S : Symbols φ → Prop) :
    h.detached.Preserves fun c => S c.symbols ∧ P c.env :=
  fun f args c hc => ⟨hc.1, hP.detached f args c hc.2⟩

section makes

variable {limit : Int}

theorem Formula.Makes.fits {h : Host φ ε} {P : Calculator φ ε → Prop} (hP : h.Preserves P)
    (hwell : ∀ c, P c → c.symbols.WellFormed limit) {c c₁ : Calculator φ ε} (hc : P c)
    {text : List Char} {y : Formula.Call φ} (hy : Formula.Makes h c text y c₁) :
    P c₁ ∧ y.Fits limit := by
  obtain ⟨hc₁, harity⟩ := hy.regular (Q := fun f => 0 ≤ f.arity ∧ f.arity ≤ limit) hP
    (fun c hc x f hf => (hwell c hc).arity_of_routine? x f hf) hc
  have hlength := (Formula.makes_iff.mp hy).2
  exact ⟨hc₁, hlength, hlength ▸ harity.2⟩

/-- The calls that a request makes. A calculator for one use has a limit of its own. -/
theorem Request.Makes.fits {h : Host φ (Logged φ ε)}
    (hP : h.Preserves fun c => c.symbols.WellFormed limit) {c c₁ : Calculator φ (Logged φ ε)}
    (hc : c.symbols.WellFormed limit) {r : Request φ} {y : Formula.Call φ} {s : Symbols φ}
    (hy : r.Makes h c y s c₁) :
    c₁.symbols.WellFormed limit ∧ s.WellFormed s.limit ∧ y.Fits s.limit := by
  cases hy with
  | eval hy =>
    obtain ⟨hc₁, hfits⟩ := hy.fits hP (fun _ => id) hc
    exact ⟨hc₁, hc₁.limit_eq ▸ hc₁, hc₁.limit_eq ▸ hfits⟩
  | evaluate hy =>
    obtain ⟨hc₁, hfits⟩ := hy.fits hP (fun _ => id) hc
    exact ⟨hc₁, hc₁.limit_eq ▸ hc₁, hc₁.limit_eq ▸ hfits⟩
  | evaluateOnce hs hy =>
    obtain ⟨⟨hown, hc₁⟩, hfits⟩ := hy.fits
      (hP.detached_symbols (Symbols.WellFormed defaultLimit)) (fun _ => And.left)
      ⟨Symbols.wellFormed_ofBindings hs, hc⟩
    exact ⟨hc₁, hown.limit_eq ▸ hown, hown.limit_eq ▸ hfits⟩

end makes

namespace History

theorem preserves_wellFormed (t : History φ) (limit : Int) (n : Nat) :
    (t.behaviour.host n).Preserves fun c => c.symbols.WellFormed limit :=
  Behaviour.host_preserves Operation.record_wellFormed (fun _ _ hc => hc) _ _

/-- All symbols that a program finds are well-formed, with the limit of the configuration. -/
theorem Reaches.wellFormed {t : History φ} {n : Nat} {α : Type} {p : Program φ t.State α}
    {c : Calculator φ (Logged φ t.State)} (h : t.Reaches n p c) :
    c.symbols.WellFormed t.configuration.limit := by
  induction h with
  | start => exact Configuration.wellFormed_symbols t.symbols_eq
  | @next n α env r next c h ih =>
    exact Request.serve_preserves Operation.record_wellFormed
      (t.preserves_wellFormed t.configuration.limit n) r ih
  | @call n α env r next c c₁ y s f h hy hf ih =>
    exact (hy.fits (t.preserves_wellFormed t.configuration.limit (n + 1)) (c := c.store env) ih).1

/-- A history comes to the end of every program that it comes to. -/
theorem Reaches.exists_run {t : History φ} {n : Nat} {α : Type} {p : Program φ t.State α}
    {c : Calculator φ (Logged φ t.State)} (h : t.Reaches n p c) :
    ∃ env a c', t.Reaches n (.pure env a : Program φ t.State α) c' ∧
      p.run (t.behaviour.host n) c = (a, c'.store env) := by
  induction p generalizing c with
  | pure env a => exact ⟨env, a, c, h, rfl⟩
  | request env r next ih => exact ih _ _ h.next

/-- Every program that a history comes to finds well-formed symbols, and so does what comes after
the history. Each call in an evaluation that is requested there is a call with the right number of
arguments, which is within the limit of the calculator that evaluates. An evaluation makes a call
if and only if the argument list has the right length where it is closed, so that the routine finds
nothing wrong with it; if the list has not, the evaluation answers with a failure at the name of the
function. A failure that is raised instead is one that a callable has raised. -/
theorem calls_fit (t : History φ) :
    t.result.symbols.WellFormed t.configuration.limit ∧
      (∀ (n : Nat) (α : Type) (p : Program φ t.State α) (c : Calculator φ (Logged φ t.State)),
        t.Reaches n p c →
          c.symbols.WellFormed t.configuration.limit ∧
            ∀ (env : t.State) (r : Request φ) (y : Formula.Call φ) (s : Symbols φ)
              (c₁ : Calculator φ (Logged φ t.State)),
              r.Makes (t.behaviour.host n) (c.store env) y s c₁ →
                s.WellFormed s.limit ∧ y.Fits s.limit) ∧
      ∀ (ε : Type) (h : Host φ ε) (c : Calculator φ ε) (text : String),
        (∀ y c₁, Formula.Makes h c text.toList y c₁ ↔
          Formula.Closes h c text.toList y c₁ ∧ y.args.length = y.routine.arity) ∧
        (∀ y c₁, Formula.Makes h c text.toList y c₁ →
          y.run h c₁ = y.routine.code.run h y.args c₁) ∧
        (∀ y c₁, Formula.Closes h c text.toList y c₁ → ¬ y.args.length = y.routine.arity →
          c.eval h (.text text) = (.ok ⟨.failure .argumentMismatch, some y.pos⟩, c₁)) ∧
        ∀ e c', c.eval h (.text text) = (.error (.evaluation e), c') →
          ∃ y c₁ g, Formula.Makes h c text.toList y c₁ ∧ y.routine.code = .callable g ∧
            h.invoke g.handle y.args c₁ = (.error (.evaluation e), c') := by
  refine ⟨?_, fun n α p c hreaches => ⟨hreaches.wellFormed, ?_⟩, fun ε h c text => ?_⟩
  · obtain ⟨env, a, c, hreaches, hrun⟩ := (Reaches.start (t := t)).exists_run
    rw [result, hrun]
    exact hreaches.wellFormed
  · intro env r y s c₁ hy
    exact (hy.fits (t.preserves_wellFormed t.configuration.limit n) (c := c.store env)
      hreaches.wellFormed).2
  · exact ⟨fun y c₁ => Formula.makes_iff, fun y c₁ hy => hy.run_eq_code_run c₁,
      fun y c₁ hy harity => hy.eval_eq harity, fun e c' he => Formula.exists_invoke_of_eval he⟩

/-- A function `g` that binds `f` to a function of one argument, while the two arguments of `f` are
evaluated. -/
def replacing : History Bool where
  State := Option (Except Fault Reply)
  configuration := {}
  initial := {}
  symbols_eq := rfl
  behaviour binds args c :=
    if binds then
      .request c.env (.operate (.bindFunction (.text "f") (.routine Standard.abs.routine) none))
        fun _ c => .pure c.env (.ok (.int 5))
    else .pure c.env (.ok (.int (args.headD 0)))
  depth := 1
  start := none
  program :=
    .request none (.operate (.bindFunction (.text "f")
      (.callable { handle := false, shown := "f" }) (some 2))) fun _ _ =>
    .request none (.operate (.bindFunction (.text "g")
      (.callable { handle := true, shown := "g" }) none)) fun _ _ =>
    .request none (.eval (.text "f(g(), 2) + f(1, 2)")) fun answer _ => .pure (some answer) ()

example : replacing.result.env.env = some (.ok (.outcome ⟨.failure .argumentMismatch, some 12⟩)) :=
  rfl

end History

end Abacus
