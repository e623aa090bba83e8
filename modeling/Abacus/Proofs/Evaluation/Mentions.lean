import Abacus.Proofs.Evaluation.Lookups
import Abacus.Proofs.Evaluation.Placement
import Abacus.Proofs.Evaluation.Substitution
import Abacus.Proofs.History.Atomicity

/-!
# Names that a text mentions

A text mentions the names that stand in it as runs of letters and digits, as far as these reach. No
other name is looked up, wherever the evaluation stands (`Stands.mentions_of_mem_lookups`). Two
tables that agree on the names that are mentioned therefore lead through the same states, as long
as what is called does not look at the tables, and operations on other names change nothing
(`eval_congr_of_mentions`).
-/
namespace Abacus

variable {φ ε : Type}

/-- The name stands somewhere in the text, and no letter or digit stands next to it. -/
structure Mentions (text : List Char) (n : String) : Prop where
  isName : isName n
  exists_run : ∃ before behind, text = before ++ (n.toList ++ behind) ∧
    (∀ c ∈ before.getLast?, c.isAlphanum = false) ∧ ∀ c ∈ behind.head?, c.isAlphanum = false

/-- The name denotes the same with both symbols, or nothing. -/
def Symbols.Agree (s s' : Symbols φ) (n : String) : Prop :=
  s'.value? n = s.value? n ∧ s'.routine? n = s.routine? n

/-- What the routine gives or raises is determined by the arguments, and it leaves the symbols
alone, whatever they are. -/
def Routine.Determined (h : Host φ ε) (f : Routine φ) : Prop :=
  ∀ args, ∃ r, ∀ c, (f.code.run h args c).1 = r ∧ (f.code.run h args c).2.symbols = c.symbols

/-- What each callable that is bound gives or raises is determined by the arguments, and it leaves
the symbols alone, whatever they are. -/
def Symbols.Determined (h : Host φ ε) (s : Symbols φ) : Prop :=
  ∀ x (f : Callable φ) n, s.routine? x = some (f.routine n) → ∀ args, ∃ r, ∀ c,
    (h.invoke f.handle args c).1 = r ∧ (h.invoke f.handle args c).2.symbols = c.symbols

theorem Symbols.Determined.routine {h : Host φ ε} {s : Symbols φ} (hs : s.Determined h)
    {x : String} {f : Routine φ} (hf : s.routine? x = some f) : f.Determined h := by
  intro args
  obtain ⟨code, n, harity⟩ := f
  cases code with
  | standard f => exact ⟨f.apply args, fun c => ⟨rfl, rfl⟩⟩
  | callable f =>
    obtain ⟨r, hr⟩ := hs x f n hf args
    refine ⟨f.answer r, fun c => ?_⟩
    obtain ⟨hresult, hsymbols⟩ := hr c
    change (h.run f args c).1 = _ ∧ (h.run f args c).2.symbols = c.symbols
    rw [h.run_eq, hresult]
    exact ⟨rfl, hsymbols⟩

namespace Formula

/-- The names that a text mentions are its words, apart from those that begin with a digit. -/
theorem mentions_iff {text : List Char} {n : String} :
    Mentions text n ↔ isName n ∧ ∃ x ∈ tokens 0 text, x.token = .word n.toList := by
  constructor
  · rintro ⟨hn, before, behind, rfl, hbefore, hbehind⟩
    let x : Identifier := ⟨n, hn⟩
    have hword : ∀ i, tokens i (n.toList ++ behind) =
        ⟨.word n.toList, i⟩ :: tokens (i + n.toList.length) behind := by
      intro i
      rw [tokens_append fun _ _ d hd ha => ?_, tokens_identifier i x]
      · rfl
      · rw [hbehind d hd] at ha
        cases ha.2
    refine ⟨hn, ⟨.word n.toList, before.length⟩, ?_, rfl⟩
    rw [tokens_append fun c hc _ _ ha => ?_, hword, Nat.zero_add]
    · exact List.mem_append_right _ List.mem_cons_self
    · rw [hbefore c hc] at ha
      cases ha.1
  · rintro ⟨hn, ⟨t, pos⟩, hx, rfl⟩
    obtain ⟨xs, ys, hxs⟩ := List.append_of_mem hx
    obtain ⟨as, bs, hcut⟩ := exists_cut hxs
    exact ⟨hn, as, bs, hcut.text_eq, hcut.before_word trivial, hcut.behind_word trivial⟩

instance (text : List Char) (n : String) : Decidable (Mentions text n) :=
  decidable_of_iff _ mentions_iff.symm

/-- Only names that the text mentions are looked up. -/
theorem Stands.mentions_of_mem_lookups {h : Host φ ε} {c c₁ : Calculator φ ε} {text : List Char}
    {before behind : List Lexeme} {s : State φ} (hs : Stands h c before s c₁)
    (htokens : tokens 0 text = before ++ behind) {n : String}
    (hn : n ∈ s.lookups behind.head?) : Mentions text n := by
  refine mentions_iff.mpr ⟨hs.isName_of_mem_lookups htokens hn, ?_⟩
  have hproper : ∀ x ∈ before, x.token.Proper := by
    intro x hx
    have hmem : x ∈ tokens 0 text := htokens ▸ List.mem_append_left _ hx
    exact proper_of_mem_tokens hmem
  have hword : n ∈ namesOf behind.head? → ∃ x ∈ tokens 0 text, x.token = .word n.toList := by
    intro hn
    obtain ⟨w, pos, hhead, -, rfl⟩ := mem_namesOf.mp hn
    refine ⟨⟨.word w, pos⟩, ?_, by rw [String.toList_ofList]⟩
    rw [htokens]
    exact List.mem_append_right _ (List.mem_of_mem_head? hhead)
  obtain ⟨d, hrun, hd⟩ := hs.exists_draft hproper
  cases hd with
  | arguments hr hes => exact hword hn
  | operand hr hes => exact hword hn
  | @name r sum frames es x pos hr hes hleaves hvalue =>
    -- The name that waits for the next token is the last one that was read.
    have hbefore : before = (⟨.atom (.name x pos), r, frames⟩ : Draft).lexemes :=
      (Draft.run_invariant Draft.tidy_initial hrun).2.symm
    refine ⟨⟨.word x.name.toList, pos⟩, ?_, by rw [List.mem_singleton.mp hn]⟩
    rw [htokens, hbefore]
    simp [Draft.lexemes, Draft.Phase.lexemes, Atom.lexemes]
  | value hr hes ha => cases hn
  | term m p hes => cases hn

/-- Two evaluations that stand at the same point and have made the same calls, each with symbols of
its own. -/
structure Evaluation.Abreast (h : Host φ ε) (s s' : Symbols φ) (e e' : Evaluation φ ε) : Prop where
  status_eq : e'.status = e.status
  calls_eq : e'.calls = e.calls
  left : e.calculator.symbols = s
  right : e'.calculator.symbols = s'
  runs : ∀ st, e.status = .reading st → st.Runs (Routine.Determined h)

namespace Evaluation

variable {h : Host φ ε} {s s' : Symbols φ} {e e' : Evaluation φ ε}

theorem Abreast.advance (hs : s.Determined h) (ha : Abreast h s s' e e') {x : Lexeme}
    (hx : ∀ st, e.status = .reading st → st.read s' x = st.read s x) :
    Abreast h s s' (e.advance h x) (e'.advance h x) := by
  obtain ⟨status, calls, c⟩ := e
  obtain ⟨status', calls', c'⟩ := e'
  obtain ⟨rfl, rfl, rfl, rfl, hruns⟩ := ha
  cases status' with
  | ended r => exact ⟨rfl, rfl, rfl, rfl, hruns⟩
  | reading st =>
    have hfair := State.fair_read (fun _ _ hf => hs.routine hf) (hruns st rfl) x
    have hread := hx st rfl
    simp only [Evaluation.advance, hread]
    cases hread : st.read c.symbols x with
    | next st' =>
      rw [hread] at hfair
      cases hfair with
      | next hst' =>
        refine ⟨rfl, rfl, rfl, rfl, ?_⟩
        rintro _ ⟨⟩
        exact hst'
    | stop r =>
      refine ⟨rfl, rfl, rfl, rfl, ?_⟩
      rintro _ ⟨⟩
    | call y st' =>
      rw [hread] at hfair
      cases hfair with
      | call harity hy hst' =>
        obtain ⟨r, hr⟩ := hy y.args
        have hrun : ∀ c, (y.run h c).1 = r ∧ (y.run h c).2.symbols = c.symbols := fun c => by
          rw [y.run_eq_code_run h harity]
          exact hr c
        refine ⟨?_, rfl, (hrun c).2, (hrun c').2, ?_⟩
        · simp only [(hrun c).1, (hrun c').1]
        · intro st'' hst''
          simp only [State.resume] at hst''
          split at hst''
          · cases hst''
          · split at hst''
            · next hreceive =>
              cases hst''
              exact State.runs_of_receive hreceive hst'
            · cases hst''

variable {text : List Char}
  (hagree : ∀ n, Mentions text n → s.Agree s' n)
include hagree

/-- Where an evaluation of the text stands, the next token or the end of the text has the same
effect with both symbols. -/
theorem Abreast.answer_eq {c : Calculator φ ε} {before behind : List Lexeme}
    (htokens : tokens 0 text = before ++ behind) {st : State φ}
    (hst : (before.foldl (Evaluation.advance h) { calculator := c }).status = .reading st)
    (stop : Nat) : st.answer s' stop behind.head? = st.answer s stop behind.head? := by
  have hstands : Stands h c before st (before.foldl (Evaluation.advance h) { calculator := c }).3 :=
    ⟨_, by rw [← hst]⟩
  exact State.answer_congr stop st behind.head? fun n hn =>
    hagree n (hstands.mentions_of_mem_lookups htokens hn)

theorem abreast_foldl (hs : s.Determined h) (env env' : ε) {before behind : List Lexeme}
    (htokens : tokens 0 text = before ++ behind) :
    Abreast h s s' (before.foldl (Evaluation.advance h) { calculator := ⟨s, env⟩ })
      (before.foldl (Evaluation.advance h) { calculator := ⟨s', env'⟩ }) := by
  induction before using List.reverseRecOn generalizing behind with
  | nil =>
    refine ⟨rfl, rfl, rfl, rfl, ?_⟩
    rintro _ ⟨⟩
    exact List.forall_mem_nil _
  | append_singleton before x ih =>
    rw [List.append_assoc, List.singleton_append] at htokens
    rw [List.foldl_append, List.foldl_append]
    exact (ih htokens).advance hs fun st hst => Abreast.answer_eq hagree htokens hst 0

end Evaluation

/-- Tables that agree on the names that the text mentions lead to the same result, by the same
calls. -/
theorem evaluation_congr {h : Host φ ε} {s s' : Symbols φ} (hs : s.Determined h) {text : List Char}
    (hagree : ∀ n, Mentions text n → s.Agree s' n) (env env' : ε) :
    (evaluate h text ⟨s', env'⟩).1 = (evaluate h text ⟨s, env⟩).1 ∧
      (evaluation h text ⟨s', env'⟩).calls = (evaluation h text ⟨s, env⟩).calls := by
  have htokens : tokens 0 text = tokens 0 text ++ [] := (List.append_nil _).symm
  have hend : Evaluation.Abreast h s s' (evaluation h text ⟨s, env⟩)
      (evaluation h text ⟨s', env'⟩) :=
    Evaluation.abreast_foldl hagree hs env env' htokens
  refine ⟨?_, hend.calls_eq⟩
  simp only [evaluate, Evaluation.finish, hend.status_eq, hend.left, hend.right]
  cases hstatus : (evaluation h text ⟨s, env⟩).status with
  | ended r => rfl
  | reading st =>
    exact Step.stop.inj (Evaluation.Abreast.answer_eq hagree htokens hstatus text.length)

end Formula

namespace Symbols

variable {n x : String}

theorem agree_refl (s : Symbols φ) (n : String) : s.Agree s n := ⟨rfl, rfl⟩

theorem Agree.trans {s s' s'' : Symbols φ} (h : s.Agree s' n) (h' : s'.Agree s'' n) :
    s.Agree s'' n := ⟨h'.1.trans h.1, h'.2.trans h.2⟩

theorem agree_putVariable (s : Symbols φ) (v : Int) (hn : x ≠ n) :
    s.Agree (s.putVariable x v) n :=
  ⟨(s.value?_putVariable x v n).trans (if_neg hn), (s.routine?_putVariable x v n).trans (if_neg hn)⟩

theorem agree_putFunction (s : Symbols φ) (f : Routine φ) (hn : x ≠ n) :
    s.Agree (s.putFunction x f) n :=
  ⟨(s.value?_putFunction x f n).trans (if_neg hn), (s.routine?_putFunction x f n).trans (if_neg hn)⟩

theorem agree_remove (s : Symbols φ) (hn : x ≠ n) : s.Agree (s.remove x).2 n := by
  unfold remove
  split
  · exact ⟨Std.ExtTreeMap.getElem?_erase.trans (if_neg (by simpa using hn)), rfl⟩
  · split
    · exact ⟨rfl, Std.ExtTreeMap.getElem?_erase.trans (if_neg (by simpa using hn))⟩
    · exact s.agree_refl n

end Symbols

def Operation.names : Operation φ → List String
  | bindVariable (.text x) _ => [x]
  | set (.text x) _ => [x]
  | bindFunction (.text x) _ _ => [x]
  | install names => Standard.selected names
  | unbind x => [x]
  | _ => []

def Operation.performAll (os : List (Operation φ)) (c : Calculator φ ε) : Calculator φ ε :=
  os.foldl (fun c o => (o.perform c).2) c

section agree

variable {c : Calculator φ ε} {n : String}

theorem Calculator.agree_set {name : Datum} (hn : ∀ x, name = .text x → x ≠ n) (value : Datum) :
    c.symbols.Agree (c.set name value).2.symbols n := by
  unfold set
  rcases c.symbols.setVariable_cases name value with ⟨e, he⟩ | ⟨x, v, -, hx, -, hok⟩
  · rw [he]
    exact c.symbols.agree_refl n
  · rw [hok]
    exact c.symbols.agree_putVariable v (hn x hx)

theorem Calculator.agree_bindFunction {name : Datum} (hn : ∀ x, name = .text x → x ≠ n)
    (offer : Offer φ) (arity : Option Int) :
    c.symbols.Agree (c.bindFunction name offer arity).2.symbols n := by
  unfold bindFunction
  rcases c.symbols.setFunction_cases name offer arity with ⟨e, he⟩ | ⟨x, f, -, hx, -, -, -, hok⟩
  · rw [he]
    exact c.symbols.agree_refl n
  · rw [hok]
    exact c.symbols.agree_putFunction f (hn x hx)

theorem Calculator.agree_install {names : Option (List String)}
    (hn : n ∉ Standard.selected names) :
    c.symbols.Agree (c.install names).2.symbols n := by
  unfold install
  rcases c.symbols.install_cases (Standard.selected names) with ⟨e, he⟩ | hok
  · rw [he]
    exact c.symbols.agree_refl n
  · have hne : ∀ f ∈ (Standard.selected names).filterMap Standard.ofName?, f.name ≠ n := by
      rintro f hf rfl
      exact hn (Standard.mem_filterMap_ofName?.mp hf)
    rw [hok]
    exact ⟨Symbols.value?_putFunctions_of_ne hne _, Symbols.routine?_putFunctions_of_ne hne _⟩

theorem Operation.agree_perform (o : Operation φ) (hn : n ∉ o.names) :
    c.symbols.Agree (o.perform c).2.symbols n := by
  cases o with
  | bindVariable name value =>
    refine Calculator.agree_set ?_ value
    rintro x rfl rfl
    exact hn (List.mem_singleton_self x)
  | set name value =>
    refine Calculator.agree_set ?_ value
    rintro x rfl rfl
    exact hn (List.mem_singleton_self x)
  | bindFunction name offer arity =>
    refine Calculator.agree_bindFunction ?_ offer arity
    rintro x rfl rfl
    exact hn (List.mem_singleton_self x)
  | install names => exact Calculator.agree_install hn
  | unbind x =>
    refine c.symbols.agree_remove ?_
    rintro rfl
    exact hn (List.mem_singleton_self x)

theorem Operation.agree_performAll {os : List (Operation φ)} (hn : ∀ o ∈ os, n ∉ o.names) :
    c.symbols.Agree (performAll os c).symbols n := by
  induction os generalizing c with
  | nil => exact c.symbols.agree_refl n
  | cons o os ih =>
    obtain ⟨ho, hos⟩ := List.forall_mem_cons.mp hn
    exact (o.agree_perform ho).trans (ih hos)

end agree

open Formula

/-- With functions whose results depend on the arguments alone, the outcome of a text and the calls
that it makes depend only on what the names that it mentions denote. In particular they stay the
same after any operations on other names, which may be parts of names in the text. -/
theorem eval_congr_of_mentions (h : Host φ ε) (s : Symbols φ) (hs : s.Determined h) (t : String) :
    (∀ s' : Symbols φ, (∀ n, Mentions t.toList n → s.Agree s' n) → ∀ env env',
        ((Calculator.mk s' env').eval h (.text t)).1 =
            ((Calculator.mk s env).eval h (.text t)).1 ∧
          (evaluation h t.toList ⟨s', env'⟩).calls = (evaluation h t.toList ⟨s, env⟩).calls) ∧
      ∀ os : List (Operation φ), (∀ o ∈ os, ∀ n ∈ o.names, ¬ Mentions t.toList n) → ∀ env,
        let c := Operation.performAll os ⟨s, env⟩
        (c.eval h (.text t)).1 = ((Calculator.mk s env).eval h (.text t)).1 ∧
          (evaluation h t.toList c).calls = (evaluation h t.toList ⟨s, env⟩).calls := by
  have hcongr : ∀ s' : Symbols φ, (∀ n, Mentions t.toList n → s.Agree s' n) → ∀ env env',
      ((Calculator.mk s' env').eval h (.text t)).1 =
          ((Calculator.mk s env).eval h (.text t)).1 ∧
        (evaluation h t.toList ⟨s', env'⟩).calls = (evaluation h t.toList ⟨s, env⟩).calls := by
    intro s' hagree env env'
    obtain ⟨hending, hcalls⟩ := evaluation_congr hs hagree env env'
    exact ⟨congrArg Ending.toOutcome hending, hcalls⟩
  refine ⟨hcongr, fun os hos env => hcongr _ (fun n hn => ?_) env _⟩
  exact Operation.agree_performAll fun o ho hmem => hos o ho n hmem hn

def onParts : List (Operation Unit) := [.set (.text "s") (.int 7), .unbind "q"]

/-- A text that mentions `sq` and `x`, with parts of `sq` bound or unbound. -/
theorem eval_congr_of_mentions_squares :
    squares.Determined squaring ∧
      (∀ n, Mentions "2 * sq(x)".toList n → squares.Agree (squares.putVariable "s" 7) n) ∧
      ((Calculator.mk (squares.putVariable "s" 7) ()).eval squaring (.text "2 * sq(x)")).1 =
        .ok ⟨.value 18, none⟩ ∧
      (∀ o ∈ onParts, ∀ n ∈ o.names, ¬ Mentions "2 * sq(x)".toList n) ∧
      ((Operation.performAll onParts (Calculator.mk squares ())).eval squaring
        (.text "2 * sq(x)")).1 = .ok ⟨.value 18, none⟩ := by
  have hdetermined : squares.Determined squaring := fun x f n hf args => ⟨_, fun c => ⟨rfl, rfl⟩⟩
  have hagree : ∀ n, Mentions "2 * sq(x)".toList n →
      squares.Agree (squares.putVariable "s" 7) n := by
    intro n hn
    have hne : "s" ≠ n := by
      rintro rfl
      exact absurd hn (by decide)
    exact squares.agree_putVariable 7 hne
  have hparts : ∀ o ∈ onParts, ∀ n ∈ o.names, ¬ Mentions "2 * sq(x)".toList n := by
    decide
  have hcongr := eval_congr_of_mentions squaring squares hdetermined "2 * sq(x)"
  refine ⟨hdetermined, hagree, ?_, hparts, ?_⟩
  · rw [(hcongr.1 _ hagree () ()).1]
    rfl
  · rw [(hcongr.2 _ hparts ()).1]
    rfl

end Abacus
