import Abacus.Proofs.Evaluation.Trailing
import Abacus.Proofs.Grammar.Diagnosis

/-!
# Syntax errors are found at the first possible place

The text in front of a syntax error can still be completed to a formula: what has been read is a
draft, and every draft can be completed. With one character more it cannot, whatever follows, unless
the error lies in a call that the grammar allows and the calculator does not
(`viable_of_eval`).
-/
namespace Abacus.Formula

variable {φ ε : Type}

def Derivable (text : String) : Prop := ∃ e : Expression, e.Spells text.toList

/-- At `p` begins the name of a function, without an argument list behind it. -/
def BareFunction (h : Host φ ε) (c : Calculator φ ε) (text : List Char) (p : Nat) : Prop :=
  ∃ f, Denotes h c text p none (some f) ∧ (behindWord text p).head? ≠ some '('

namespace Draft

/-- A text whose tokens form a draft is the beginning of a formula. -/
theorem exists_derivable {text : List Char} {d : Draft} (hrun : run (tokens 0 text) {} = some d) :
    ∃ t : String, Derivable t ∧ text <+: t.toList := by
  obtain ⟨cs, e, he⟩ := d.exists_parse (text.length + 1)
  have hcut : ∀ a ∈ text.getLast?, ∀ b ∈ (' ' :: cs).head?, ¬ (a.isAlphanum ∧ b.isAlphanum) := by
    rintro a - b ⟨⟩ ⟨-, hb⟩
    cases hb
  have htokens : tokens 0 (text ++ ' ' :: cs) = tokens 0 text ++ tokens (text.length + 1) cs := by
    rw [tokens_append hcut, tokens_cons_blank (by decide), Nat.zero_add]
  refine ⟨String.ofList (text ++ ' ' :: cs), ⟨e, ?_⟩, ?_⟩
  · rw [Expression.spells_iff, String.toList_ofList, htokens, parse, run_append, hrun]
    exact he
  · rw [String.toList_ofList]
    exact List.prefix_append text (' ' :: cs)

/-- Where no operand is due no word can follow. -/
theorem read_eq_none_of_isWord {d : Draft} (hd : ¬ d.Awaits) {x : Lexeme} (hx : x.token.IsWord) :
    d.read x = none := by
  cases hread : d.read x with
  | none => rfl
  | some d' => exact absurd ((grows_of_read hread).awaits_of_isWord hx) hd

theorem read_ne_none_of_derivable {t : String} (ht : Derivable t) {xs ys : List Lexeme}
    {x : Lexeme} (htokens : tokens 0 t.toList = xs ++ x :: ys) {d : Draft}
    (hrun : run xs {} = some d) : d.read x ≠ none := by
  obtain ⟨e, he⟩ := ht
  intro hread
  have hparse := Expression.spells_iff.mp he
  rw [htokens, parse, run_append, hrun, Option.bind_some, run_cons, hread] at hparse
  cases hparse

end Draft

namespace Cut

variable {text as bs : List Char} {xs ys : List Lexeme} {x : Lexeme}

/-- A text that agrees with another one up to the first character of a token `x` has the same
tokens before it, and there the same mark, or some word if `x` is a word. -/
theorem tokens_of_take (hcut : Cut 0 text xs x ys as bs) (hx : x.token.Proper)
    {text' : List Char} (htext' : text.take (x.pos + 1) <+: text') :
    ∃ t zs, tokens 0 text' = xs ++ ⟨t, x.pos⟩ :: zs ∧
      (t = x.token ∨ t.IsWord ∧ x.token.IsWord) := by
  obtain ⟨ch, cs, hspelling, hblank⟩ := hx.exists_cons
  have hpos : x.pos = as.length := hcut.pos_eq.trans (Nat.zero_add _)
  have htake : text.take (x.pos + 1) = as ++ [ch] := by
    rw [hcut.text_eq, hspelling, List.cons_append, List.append_cons]
    exact List.take_left' (by rw [hpos, List.length_append, List.length_singleton])
  obtain ⟨rest, rfl⟩ := htext'
  obtain ⟨t, zs, hzs, ht⟩ := exists_tokens_cons x.pos hblank rest
  have hbefore : ∀ a ∈ as.getLast?, ∀ b ∈ (ch :: rest).head?, ¬ (a.isAlphanum ∧ b.isAlphanum) := by
    rintro a ha b ⟨⟩ ⟨haa, hba⟩
    by_cases hword : x.token.IsWord
    · rw [hcut.before_word hword a ha] at haa
      cases haa
    · obtain ⟨ch', hch', -, ha', -⟩ := x.token.mark_of_proper hx hword
      obtain ⟨rfl, -⟩ := List.cons.inj (hspelling.symm.trans hch')
      rw [ha'] at hba
      cases hba
  refine ⟨t, zs, ?_, ?_⟩
  · rw [htake, List.append_assoc, List.singleton_append, tokens_append hbefore, Nat.zero_add,
      ← hpos, hzs, hcut.before_eq]
  · by_cases hword : x.token.IsWord
    · right
      refine ⟨?_, hword⟩
      rcases ht with ⟨rfl, ha⟩ | ⟨ht, -⟩
      · exfalso
        cases htoken : x.token with
        | word w =>
          rw [htoken] at hx hspelling
          obtain rfl : w = ch :: cs := hspelling
          rw [hx.2 ch List.mem_cons_self] at ha
          cases ha
        | _ =>
          rw [htoken] at hword
          exact hword
      · exact ht
    · left
      obtain ⟨ch', hch', -, ha', hmark⟩ := x.token.mark_of_proper hx hword
      obtain ⟨rfl, -⟩ := List.cons.inj (hspelling.symm.trans hch')
      rcases ht with ⟨rfl, -⟩ | ⟨-, ha⟩
      · exact hmark
      · rw [ha'] at ha
        cases ha

end Cut

/-- A word where an operand is due is no syntax error. -/
theorem State.readWord_ne_syntaxError (symbols : Symbols φ) (w : List Char) (pos q : Nat)
    (s : State φ) : s.readWord symbols w pos ≠ .stop (.failure ⟨.syntaxError, q⟩) := by
  intro h
  by_cases hdigit : w.head?.any Char.isDigit
  · simp only [readWord, if_pos hdigit] at h
    split at h <;> cases h
  · simp only [readWord, if_neg hdigit] at h
    split at h <;> cases h

section viability

variable {h : Host φ ε} {c c₁ : Calculator φ ε} {text : List Char} {q : Nat}

theorem Draft.Accords.awaits {d : Draft} {s : State φ} (hs : d.Accords h c c₁ s)
    (hd : d.Awaits) : s.Awaits := by
  cases hs with
  | arguments hr hes => exact .inr rfl
  | operand hr hes => exact .inl rfl
  | name hr hes hleaves hvalue => exact absurd hd Draft.not_awaits_atom
  | value hr hes ha => exact absurd hd Draft.not_awaits_atom
  | term m p hes => exact absurd hd Draft.not_awaits_term

/-- What has been read before a syntax error is a draft. The token at which it is noticed, if there
is one, is a word only where no operand is due. -/
theorem exists_draft_of_syntaxError (he : (evaluate h text c).1 = .failure ⟨.syntaxError, q⟩) :
    ∃ xs ys d, tokens 0 text = xs ++ ys ∧ Draft.run xs {} = some d ∧
      (∀ x ∈ ys.head?, x.token.IsWord → ¬ d.Awaits) ∧
      (Cause h c xs ys.head? ⟨.syntaxError, q⟩ ∨ ys = [] ∧ q = text.length) := by
  have hproper : ∀ x ∈ tokens 0 text, x.token.Proper := fun x hx => proper_of_mem_tokens hx
  rcases evaluation_cases h c text with
    ⟨s, hs, hfinish⟩ | ⟨before, x, behind, s, c₁, htokens, hs, hleads⟩
  · obtain ⟨d, hrun, hd⟩ := hs.exists_draft hproper
    refine ⟨tokens 0 text, [], d, (List.append_nil _).symm, hrun, nofun, ?_⟩
    rcases hd.cause_of_finish hrun (hfinish.symm.trans he) with hcause | hend
    · exact .inl hcause
    · exact .inr ⟨rfl, congrArg Failure.pos hend⟩
  · rw [htokens] at hproper
    have hx := hproper x (List.mem_append_right before List.mem_cons_self)
    obtain ⟨d, hrun, hd⟩ := hs.exists_draft fun y hy => hproper y (List.mem_append_left _ hy)
    rw [he] at hleads
    cases hleads with
    | stop hread =>
      have hanswers := hd.answers_read hrun hs hx
      rw [hread] at hanswers
      cases hanswers with
      | failure hcause =>
        refine ⟨before, x :: behind, d, htokens, hrun, ?_, .inl hcause⟩
        rintro y ⟨⟩ hword hawaits
        obtain ⟨t, pos⟩ := x
        cases t with
        | word w =>
          rw [(hd.awaits hawaits).read_word] at hread
          exact State.readWord_ne_syntaxError _ w pos q s hread
        | _ => exact hword
    | @failure y s' v _ hread hcall hreceive =>
      rcases s'.receive_cases v with ⟨p, -, hok⟩ | ⟨e, hm, herror⟩
      · cases hok.symm.trans hreceive
      · obtain ⟨a, op, pos, -, -, rfl⟩ := RunningSum.of_multiply_error hm
        cases herror.symm.trans hreceive

/-- What can follow in front of a syntax error, and what cannot follow at its place. -/
theorem viable_of_syntaxError (he : (evaluate h text c).1 = .failure ⟨.syntaxError, q⟩) :
    (∃ t : String, Derivable t ∧ text.take q <+: t.toList) ∧
      (q < text.length → text[q]? ≠ some '(' → ¬ BareFunction h c text q →
        ∀ t : String, text.take (q + 1) <+: t.toList → ¬ Derivable t) := by
  have hproper : ∀ x ∈ tokens 0 text, x.token.Proper := fun x hx => proper_of_mem_tokens hx
  obtain ⟨xs, ys, d, htokens, hrun, hword, hcause | ⟨rfl, rfl⟩⟩ := exists_draft_of_syntaxError he
  · generalize hnext : ys.head? = next at hcause
    cases hcause with
    | @uncalled before x _ c₁ f _ hxs hleaves hvalue hroutine hopening =>
      -- The name itself is at fault, so it is the draft without the name that can be completed.
      rw [hxs, List.append_assoc, List.singleton_append] at htokens
      have hname := hleaves.denotes htokens hvalue hroutine
      obtain ⟨as, bs, hcut⟩ := exists_cut htokens
      obtain ⟨d₀, hd₀, -⟩ := Option.bind_eq_some_iff.mp ((Draft.run_append _ _ _).symm.trans
        (hxs ▸ hrun))
      refine ⟨Draft.exists_derivable (d := d₀) ?_, fun _ _ hbare => absurd ⟨f, hname, ?_⟩ hbare⟩
      · rw [show text.take q = as from hcut.take_eq, hcut.before_eq, hd₀]
      · rw [(hcut.wordAt_eq x.proper).2]
        apply head?_ne_opening
        rw [hcut.behind_eq, hnext]
        exact hopening
    | @uncallable before a _ hxs ha =>
      obtain ⟨ys, rfl⟩ := List.head?_eq_some_iff.mp hnext
      obtain ⟨as, bs, hcut⟩ := exists_cut htokens
      refine ⟨Draft.exists_derivable (d := d) ?_, fun _ hno => ?_⟩
      · rw [show text.take q = as from hcut.take_eq, hcut.before_eq, hrun]
      · exact absurd (hcut.getElem?_eq trivial) hno
    | @misplaced y hbegins hends =>
      obtain ⟨ys, rfl⟩ := List.head?_eq_some_iff.mp hnext
      obtain ⟨as, bs, hcut⟩ := exists_cut htokens
      have hread : d.read y = none := by
        cases hread : d.read y with
        | none => rfl
        | some d' =>
          have hrun' : Draft.run (xs ++ [y]) {} = some d' := by
            rw [Draft.run_append, hrun, Option.bind_some, Draft.run_cons, hread]
            rfl
          obtain ⟨e, he⟩ := Draft.exists_run_iff.mp ⟨d', hrun'⟩
          exact absurd he (hends e)
      have hy := hproper y (htokens ▸ List.mem_append_right xs List.mem_cons_self)
      refine ⟨Draft.exists_derivable (d := d) ?_, fun _ _ _ t ht hderivable => ?_⟩
      · rw [hcut.take_eq, hcut.before_eq, hrun]
      · obtain ⟨t', zs, hzs, rfl | ⟨ht', hyword⟩⟩ := hcut.tokens_of_take hy ht
        · exact Draft.read_ne_none_of_derivable hderivable hzs hrun hread
        · refine Draft.read_ne_none_of_derivable hderivable hzs hrun ?_
          exact Draft.read_eq_none_of_isWord (hword y rfl hyword) ht'
  · rw [List.append_nil] at htokens
    refine ⟨Draft.exists_derivable (d := d) ?_, fun hlt => absurd hlt (Nat.lt_irrefl _)⟩
    rw [List.take_length, htokens, hrun]

end viability

/-- In front of a syntax error stands the beginning of a formula. With the character at its position
the text is no beginning of a formula any more, unless that character is a parenthesis that opens,
or the position is that of a function's name without an argument list. -/
theorem viable_of_eval (h : Host φ ε) (c : Calculator φ ε) (t : String) (p : Option Int)
    (hfailure : (c.eval h (.text t)).1 = .ok ⟨.failure .syntaxError, p⟩) :
    ∃ q : Nat, p = some (q : Int) ∧ q ≤ t.length ∧
      (∃ t' : String, Derivable t' ∧ t.toList.take q <+: t'.toList) ∧
      (q < t.length → t.toList[q]? ≠ some '(' → ¬ BareFunction h c t.toList q →
        ∀ t' : String, t.toList.take (q + 1) <+: t'.toList → ¬ Derivable t') := by
  have hending : (evaluate h t.toList c).1.toOutcome = .ok ⟨.failure .syntaxError, p⟩ := hfailure
  cases hr : (evaluate h t.toList c).1 with
  | value n =>
    rw [hr] at hending
    cases hending
  | fault f =>
    rw [hr] at hending
    cases hending
  | failure e =>
    rw [hr] at hending
    obtain ⟨k, q⟩ := e
    cases hending
    have hle : q ≤ t.length := by
      rw [← String.length_toList]
      obtain ⟨xs, ys, htokens, hcause | ⟨-, hend⟩⟩ := exists_cause hr
      · exact (hcause.diagnosis htokens).pos_le.1
      · exact (congrArg Failure.pos hend).le
    exact ⟨q, rfl, hle, viable_of_syntaxError hr⟩

/-- A second operator where an operand is due. -/
theorem viable_of_eval_adder :
    (adder.eval (Script.host 1) (.text "f(1, 2) + * 3")).1 = .ok ⟨.failure .syntaxError, some 10⟩ ∧
      (∃ t : String, Derivable t ∧ "f(1, 2) + ".toList <+: t.toList) ∧
      ∀ t : String, "f(1, 2) + *".toList <+: t.toList → ¬ Derivable t := by
  have hfailure : (adder.eval (Script.host 1) (.text "f(1, 2) + * 3")).1 =
      .ok ⟨.failure .syntaxError, some 10⟩ := by rfl
  obtain ⟨q, hq, -, hbefore, hafter⟩ := viable_of_eval _ _ _ _ hfailure
  obtain rfl : 10 = q := Int.ofNat.inj (Option.some.inj hq)
  refine ⟨hfailure, hbefore, hafter (by decide) (by decide) ?_⟩
  rintro ⟨f, ⟨hbegins, -⟩, -⟩
  obtain ⟨ch, hch, hfirst⟩ := hbegins.exists_first
  obtain rfl : '*' = ch := Option.some.inj hch
  exact absurd hfirst (by decide)

end Abacus.Formula
