import Abacus.Proofs.Evaluation.Blanks
import Abacus.Proofs.Evaluation.Placement
import Abacus.Proofs.Grammar.Accord

/-!
# What a failure says about the text

A failure comes with a position in the text, and what stands there shows its cause. `Diagnosis`
lists, for each kind of failure, what is found at the position and around it; every failure of an
evaluation is of one of these forms (`diagnosis_of_eval`).
-/
namespace Abacus.Formula

variable {φ ε : Type}

def wordAt (text : List Char) (p : Nat) : List Char := (text.drop p).takeWhile Char.isAlphanum

/-- What stands behind these letters and digits and the blanks that follow them. -/
def behindWord (text : List Char) (p : Nat) : List Char :=
  ((text.drop p).dropWhile Char.isAlphanum).dropWhile isBlank

/-- At `p` stands a character of the class `first`, and no letter or digit before it. -/
structure WordBegins (text : List Char) (p : Nat) (first : Char → Bool) : Prop where
  exists_first : ∃ ch, text[p]? = some ch ∧ first ch
  before : ∀ ch ∈ (text.take p).getLast?, ch.isAlphanum = false

def SpellsArguments (text : List Char) (n : Nat) : Prop :=
  (∀ ch ∈ text, isBlank ch) ∧ n = 0 ∨
    ∃ (args : Arguments) (i : Nat), Spelled i text args.lexemes ∧ n = args.count

section diagnosis

variable (h : Host φ ε) (c : Calculator φ ε) (text : List Char)

/-- At `p` begins a name, and when the evaluation came to it, this was what it denoted as a variable
and as a function. -/
structure Denotes (p : Nat) (value? : Option Int) (routine? : Option (Routine φ)) : Prop where
  begins : WordBegins text p Char.isAlpha
  comes : ∃ s c₁, Comes h c text ⟨.word (wordAt text p), p⟩ s c₁ ∧
    c₁.symbols.value? (String.ofList (wordAt text p)) = value? ∧
    c₁.symbols.routine? (String.ofList (wordAt text p)) = routine?

/-- What is found in the text at the position of a failure, and what it shows. -/
inductive Diagnosis : Failure → Prop
  /-- Letters and digits that begin with a digit and spell no literal. -/
  | literal {p : Nat} (hbegins : WordBegins text p Char.isDigit)
      (hliteral : ∀ l : Literal, l.spelling ≠ wordAt text p) : Diagnosis ⟨.invalidLiteral, p⟩
  /-- A name that was neither a variable nor a function. -/
  | unknown {p : Nat} (hname : Denotes h c text p none none) : Diagnosis ⟨.unknownIdentifier, p⟩
  /-- A function's name with an argument list behind it that has not as many arguments as the
  function takes. -/
  | mismatch {p n : Nat} {f : Routine φ} {inner behind : List Char}
      (hname : Denotes h c text p none (some f))
      (hbehind : behindWord text p = '(' :: (inner ++ ')' :: behind))
      (hinner : SpellsArguments inner n) (harity : n ≠ f.arity) :
      Diagnosis ⟨.argumentMismatch, p⟩
  /-- A sign of division. -/
  | zero {p : Nat} (hsign : text[p]? = some '/' ∨ text[p]? = some '%') :
      Diagnosis ⟨.divideByZero, p⟩
  /-- The end of the text. -/
  | ending : Diagnosis ⟨.syntaxError, text.length⟩
  /-- A function's name without an argument list behind it. -/
  | uncalled {p : Nat} {f : Routine φ} (hname : Denotes h c text p none (some f))
      (hbehind : (behindWord text p).head? ≠ some '(') : Diagnosis ⟨.syntaxError, p⟩
  /-- A parenthesis that opens behind a group, a literal or a variable. -/
  | uncallable {p : Nat} {a : Atom} (hopening : text[p]? = some '(')
      (hatom : a.lexemes <:+ tokens 0 (text.take p))
      (hname : ∀ x q, a = .name x q → ∃ v f?, Denotes h c text q (some v) f?) :
      Diagnosis ⟨.syntaxError, p⟩
  /-- The first token of the text that no derivation allows where it stands. -/
  | misplaced {x : Lexeme} (hmem : x ∈ tokens 0 text)
      (hbegins : ∃ e : Expression, tokens 0 (text.take x.pos) <+: e.lexemes)
      (hends : ∀ e : Expression, ¬ tokens 0 (text.take x.pos) ++ [x] <+: e.lexemes) :
      Diagnosis ⟨.syntaxError, x.pos⟩

end diagnosis

theorem isBlank_of_tokens_eq_nil {i : Nat} {cs : List Char} (h : tokens i cs = []) :
    ∀ ch ∈ cs, isBlank ch := by
  induction cs generalizing i with
  | nil => exact List.forall_mem_nil _
  | cons c cs ih =>
    by_cases hb : isBlank c
    · rw [tokens_cons_blank hb] at h
      exact List.forall_mem_cons.mpr ⟨hb, ih h⟩
    · exfalso
      by_cases ha : c.isAlphanum
      · rw [tokens_cons_alphanum ha] at h
        rcases join_cases i c (tokens (i + 1) cs) with ⟨w, ys, -, hj⟩ | ⟨-, hj⟩
        · cases hj.symm.trans h
        · cases hj.symm.trans h
      · rw [tokens_cons_mark (Bool.not_eq_true _ ▸ hb) (Bool.not_eq_true _ ▸ ha)] at h
        cases h

/-- No token begins with a blank. -/
theorem Token.Proper.exists_cons {t : Token} (ht : t.Proper) :
    ∃ ch cs, t.spelling = ch :: cs ∧ isBlank ch = false := by
  by_cases hw : t.IsWord
  · cases t with
    | word w =>
      obtain ⟨ch, cs, rfl⟩ := List.exists_cons_of_ne_nil ht.1
      exact ⟨ch, cs, rfl, isBlank_eq_false_of_isAlphanum (ht.2 ch List.mem_cons_self)⟩
    | _ => exact absurd hw id
  · obtain ⟨ch, hspelling, hblank, -⟩ := t.mark_of_proper ht hw
    exact ⟨ch, [], hspelling, hblank⟩

namespace Cut

variable {text as bs : List Char} {xs ys : List Lexeme} {x : Lexeme} {p : Nat}

theorem take_eq (hcut : Cut 0 text xs x ys as bs) : text.take x.pos = as := by
  rw [hcut.pos_eq, hcut.text_eq, Nat.zero_add, List.take_left]

theorem drop_eq (hcut : Cut 0 text xs x ys as bs) :
    text.drop x.pos = x.token.spelling ++ bs := by
  rw [hcut.pos_eq, hcut.text_eq, Nat.zero_add, List.drop_left]

theorem getElem?_eq (hcut : Cut 0 text xs x ys as bs) (hx : x.token.Proper) :
    text[x.pos]? = x.token.spelling.head? := by
  obtain ⟨c, cs, hc⟩ := List.exists_cons_of_ne_nil (Token.spelling_ne_nil hx)
  rw [← List.head?_drop, hcut.drop_eq, hc]
  rfl

/-- A word is the run of letters and digits that begins at its position. -/
theorem wordAt_eq {w : List Char} (hcut : Cut 0 text xs ⟨.word w, p⟩ ys as bs)
    (hw : (Token.word w).Proper) :
    wordAt text p = w ∧ behindWord text p = bs.dropWhile isBlank := by
  have hdrop : text.drop p = w ++ bs := hcut.drop_eq
  have hhead := hcut.behind_word trivial
  have htake : bs.takeWhile Char.isAlphanum = [] := by
    cases bs with
    | nil => rfl
    | cons c bs => exact List.takeWhile_cons_of_neg (by rw [hhead c rfl]; exact Bool.false_ne_true)
  have hrest : bs.dropWhile Char.isAlphanum = bs := by
    have happend := List.takeWhile_append_dropWhile (p := Char.isAlphanum) (l := bs)
    rwa [htake, List.nil_append] at happend
  rw [wordAt, behindWord, hdrop, List.takeWhile_append_of_pos hw.2,
    List.dropWhile_append_of_pos hw.2, htake, hrest, List.append_nil]
  exact ⟨rfl, rfl⟩

theorem wordBegins {w : List Char} (hcut : Cut 0 text xs ⟨.word w, p⟩ ys as bs)
    (hw : (Token.word w).Proper) {first : Char → Bool} (hfirst : w.head?.any first) :
    WordBegins text p first := by
  refine ⟨?_, ?_⟩
  · have hget : text[p]? = w.head? := hcut.getElem?_eq hw
    rw [hget]
    exact (Option.any_eq_true _ _).mp hfirst
  · intro ch hch
    rw [hcut.take_eq] at hch
    exact hcut.before_word trivial ch hch

end Cut

theorem exists_of_tokens_opening {i q : Nat} {cs : List Char} {ys : List Lexeme}
    (h : tokens i cs = ⟨.opening, q⟩ :: ys) :
    ∃ bs, cs.dropWhile isBlank = '(' :: bs ∧ tokens (q + 1) bs = ys ∧
      i + cs.length = q + ('(' :: bs).length := by
  obtain ⟨as, bs, hcut⟩ := exists_cut ((List.nil_append _).trans h.symm).symm
  refine ⟨bs, ?_, hcut.behind_eq, ?_⟩
  · rw [hcut.text_eq, List.dropWhile_append_of_pos (isBlank_of_tokens_eq_nil hcut.before_eq)]
    rfl
  · have hpos : q = i + as.length := hcut.pos_eq
    rw [hcut.text_eq, hpos, List.length_append, Nat.add_assoc]
    rfl

theorem head?_ne_opening {i : Nat} {cs : List Char}
    (h : ∀ y ∈ (tokens i cs).head?, y.token ≠ .opening) :
    (cs.dropWhile isBlank).head? ≠ some '(' := by
  intro hhead
  obtain ⟨bs, hbs⟩ := List.head?_eq_some_iff.mp hhead
  have hblanks : ∀ ch ∈ cs.takeWhile isBlank, isBlank ch := fun ch hch => List.mem_takeWhile_imp hch
  have hcs : cs = cs.takeWhile isBlank ++ '(' :: bs := by
    rw [← hbs, List.takeWhile_append_dropWhile]
  rw [hcs, tokens_blanks_append hblanks, tokens_cons_mark (by decide) (by decide)] at h
  exact h _ rfl rfl

theorem IsArgumentList.spells {i n : Nat} {cs : List Char} {xs : List Lexeme}
    (hxs : IsArgumentList xs n) (hcs : tokens i cs = xs) : SpellsArguments cs n := by
  rcases hxs with ⟨rfl, rfl⟩ | ⟨args, rfl, rfl⟩
  · exact .inl ⟨isBlank_of_tokens_eq_nil hcs, rfl⟩
  · refine .inr ⟨args, i, ?_, rfl⟩
    rw [← hcs]
    exact spelled_tokens i cs

theorem Identifier.proper (x : Identifier) : (Token.word x.name.toList).Proper :=
  ⟨x.toList_ne_nil, x.isAlphanum_of_mem⟩

theorem Identifier.isAlpha_head (x : Identifier) : x.name.toList.head?.any Char.isAlpha := by
  obtain ⟨ch, cs, hx, hch, -⟩ := x.exists_cons
  rw [hx]
  exact hch

section diagnosis

variable {h : Host φ ε} {c c₁ : Calculator φ ε} {text : List Char}

theorem Leaves.denotes {before behind : List Lexeme} {x : Identifier} {p : Nat}
    (hleaves : Leaves h c before c₁)
    (htokens : tokens 0 text = before ++ ⟨.word x.name.toList, p⟩ :: behind)
    {value? : Option Int} {routine? : Option (Routine φ)}
    (hvalue : c₁.symbols.value? x.name = value?)
    (hroutine : c₁.symbols.routine? x.name = routine?) :
    Denotes h c text p value? routine? := by
  obtain ⟨as, bs, hcut⟩ := exists_cut htokens
  have hword : wordAt text p = x.name.toList := (hcut.wordAt_eq x.proper).1
  obtain ⟨s, hs⟩ := hleaves
  refine ⟨hcut.wordBegins x.proper x.isAlpha_head, s, c₁, ?_, ?_, ?_⟩
  · exact ⟨before, behind, by rw [hword, htokens], hs⟩
  · rw [hword, String.ofList_toList, hvalue]
  · rw [hword, String.ofList_toList, hroutine]

/-- Each cause is seen in the text. -/
theorem Cause.diagnosis {xs ys : List Lexeme} {e : Failure} (hcause : Cause h c xs ys.head? e)
    (htokens : tokens 0 text = xs ++ ys) : Diagnosis h c text e := by
  have hproper : ∀ x ∈ tokens 0 text, x.token.Proper := fun x hx => proper_of_mem_tokens hx
  generalize hnext : ys.head? = next at hcause
  cases hcause with
  | @literal w p hdigit hliteral =>
    obtain ⟨ys, rfl⟩ := List.head?_eq_some_iff.mp hnext
    obtain ⟨as, bs, hcut⟩ := exists_cut htokens
    have hw : (Token.word w).Proper :=
      hproper ⟨.word w, p⟩ (htokens ▸ List.mem_append_right xs List.mem_cons_self)
    refine .literal (hcut.wordBegins hw hdigit) ?_
    rw [(hcut.wordAt_eq hw).1]
    exact hliteral
  | unknown hxs hleaves hvalue hroutine =>
    rw [hxs, List.append_assoc, List.singleton_append] at htokens
    exact .unknown (hleaves.denotes htokens hvalue hroutine)
  | @uncalled before x p c₁ f _ hxs hleaves hvalue hroutine hopening =>
    rw [hxs, List.append_assoc, List.singleton_append] at htokens
    have hname := hleaves.denotes htokens hvalue hroutine
    obtain ⟨as, bs, hcut⟩ := exists_cut htokens
    refine .uncalled hname ?_
    rw [(hcut.wordAt_eq x.proper).2]
    apply head?_ne_opening
    rw [hcut.behind_eq, hnext]
    exact hopening
  | @mismatch before inner x p opening closing n c₁ f hxs hleaves hvalue hroutine hinner harity =>
    obtain ⟨ys, rfl⟩ := List.head?_eq_some_iff.mp hnext
    rw [hxs, List.append_assoc] at htokens
    have hname := hleaves.denotes htokens hvalue hroutine
    obtain ⟨as, bs, hcut⟩ := exists_cut htokens
    obtain ⟨cs, hcs, hrest, -⟩ := exists_of_tokens_opening hcut.behind_eq
    obtain ⟨ds, es, hcut'⟩ := exists_cut hrest
    have hbehind : behindWord text p = '(' :: (ds ++ ')' :: es) := by
      rw [(hcut.wordAt_eq x.proper).2, hcs, hcut'.text_eq]
      rfl
    exact .mismatch hname hbehind (hinner.spells hcut'.before_eq) harity
  | @zero op p _ hop hmem =>
    obtain ⟨before, behind, hxs⟩ := List.mem_iff_append.mp hmem
    rw [hxs, List.append_assoc] at htokens
    obtain ⟨as, bs, hcut⟩ := exists_cut htokens
    have hget : text[p]? = (Token.factor op).spelling.head? := hcut.getElem?_eq trivial
    cases op with
    | times => exact absurd rfl hop
    | quotient => exact .zero (.inl hget)
    | remainder => exact .zero (.inr hget)
  | @uncallable before a p hxs ha =>
    obtain ⟨ys, rfl⟩ := List.head?_eq_some_iff.mp hnext
    obtain ⟨as, bs, hcut⟩ := exists_cut htokens
    refine .uncallable (a := a) (hcut.getElem?_eq trivial) ?_ ?_
    · rw [show text.take p = as from hcut.take_eq, hcut.before_eq, hxs]
      exact List.suffix_append before a.lexemes
    · intro x q hx
      obtain ⟨c₁, hleaves, hvalue⟩ := ha x q hx
      obtain ⟨v, hv⟩ := Option.ne_none_iff_exists'.mp hvalue
      rw [hxs, hx, List.append_assoc] at htokens
      exact ⟨v, _, hleaves.denotes htokens hv rfl⟩
  | @misplaced y hbegins hends =>
    obtain ⟨ys, rfl⟩ := List.head?_eq_some_iff.mp hnext
    obtain ⟨as, bs, hcut⟩ := exists_cut htokens
    have hbefore : tokens 0 (text.take y.pos) = xs := by
      rw [hcut.take_eq, hcut.before_eq]
    refine .misplaced (htokens ▸ List.mem_append_right xs List.mem_cons_self) ?_ ?_
    · rw [hbefore]
      exact hbegins
    · rw [hbefore]
      exact hends

/-- A failure lies in the text or at its end, and never at a blank. -/
theorem Diagnosis.pos_le {e : Failure} (hd : Diagnosis h c text e) :
    e.pos ≤ text.length ∧ ∀ ch, text[e.pos]? = some ch → isBlank ch = false := by
  have hsome : ∀ {p ch}, text[p]? = some ch → isBlank ch = false →
      p ≤ text.length ∧ ∀ ch', text[p]? = some ch' → isBlank ch' = false := by
    intro p ch hch hblank
    refine ⟨(List.getElem?_eq_some_iff.mp hch).1.le, fun ch' hch' => ?_⟩
    obtain rfl := Option.some.inj (hch.symm.trans hch')
    exact hblank
  have hword : ∀ {p first}, WordBegins text p first → (∀ ch, first ch → ch.isAlphanum) →
      p ≤ text.length ∧ ∀ ch, text[p]? = some ch → isBlank ch = false := by
    intro p first hbegins hfirst
    obtain ⟨ch, hch, hp⟩ := hbegins.exists_first
    exact hsome hch (isBlank_eq_false_of_isAlphanum (hfirst ch hp))
  have halpha : ∀ ch : Char, ch.isAlpha → ch.isAlphanum := by
    intro ch hch
    simp [Char.isAlphanum, hch]
  have hdigit : ∀ ch : Char, ch.isDigit → ch.isAlphanum := by
    intro ch hch
    simp [Char.isAlphanum, hch]
  cases hd with
  | literal hbegins hliteral => exact hword hbegins hdigit
  | unknown hname => exact hword hname.begins halpha
  | mismatch hname hbehind hinner harity => exact hword hname.begins halpha
  | zero hsign =>
    rcases hsign with hsign | hsign
    · exact hsome hsign (by decide)
    · exact hsome hsign (by decide)
  | ending => exact ⟨Nat.le_refl _, fun ch hch => by simp at hch⟩
  | uncalled hname hbehind => exact hword hname.begins halpha
  | uncallable hopening hatom hname => exact hsome hopening (by decide)
  | @misplaced x hmem hbegins hends =>
    obtain ⟨before, behind, hx⟩ := List.mem_iff_append.mp hmem
    obtain ⟨as, bs, hcut⟩ := exists_cut hx
    obtain ⟨ch, cs, hspelling, hblank⟩ := (proper_of_mem_tokens hmem).exists_cons
    have hget := hcut.getElem?_eq (proper_of_mem_tokens hmem)
    rw [hspelling] at hget
    exact hsome hget hblank

end diagnosis

/-- Every failure of an evaluation shows its cause: it comes with a position in the text or at its
end, which is not the position of a blank, and what is found there fits its kind. -/
theorem diagnosis_of_eval (h : Host φ ε) (c : Calculator φ ε) (t : String) (k : ErrorKind)
    (p : Option Int) (hfailure : (c.eval h (.text t)).1 = .ok ⟨.failure k, p⟩) :
    ∃ q : Nat, p = some (q : Int) ∧ q ≤ t.length ∧
      (∀ ch, t.toList[q]? = some ch → isBlank ch = false) ∧ Diagnosis h c t.toList ⟨k, q⟩ := by
  have hending : (evaluate h t.toList c).1.toOutcome = .ok ⟨.failure k, p⟩ := hfailure
  cases hr : (evaluate h t.toList c).1 with
  | value n =>
    rw [hr] at hending
    cases hending
  | fault f =>
    rw [hr] at hending
    cases hending
  | failure e =>
    rw [hr] at hending
    obtain ⟨k, q⟩ := e
    cases hending
    have hd : Diagnosis h c t.toList ⟨k, q⟩ := by
      obtain ⟨xs, ys, htokens, hcause | ⟨-, hend⟩⟩ := exists_cause hr
      · exact hcause.diagnosis htokens
      · rw [hend]
        exact .ending
    obtain ⟨hle, hblank⟩ := hd.pos_le
    rw [String.length_toList] at hle
    exact ⟨q, rfl, hle, hblank, hd⟩

/-- Three arguments, one of them a call, for a function of two. -/
theorem diagnosis_of_eval_adder :
    (adder.eval (Script.host 1) (.text "1 + f( f(1,2) ,3, 4)*2")).1 =
        .ok ⟨.failure .argumentMismatch, some 4⟩ ∧
      Diagnosis (Script.host 1) adder "1 + f( f(1,2) ,3, 4)*2".toList ⟨.argumentMismatch, 4⟩ := by
  have hfailure : (adder.eval (Script.host 1) (.text "1 + f( f(1,2) ,3, 4)*2")).1 =
      .ok ⟨.failure .argumentMismatch, some 4⟩ := by rfl
  obtain ⟨q, hq, -, -, hd⟩ := diagnosis_of_eval _ _ _ _ _ hfailure
  obtain rfl : 4 = q := Int.ofNat.inj (Option.some.inj hq)
  exact ⟨hfailure, hd⟩

end Abacus.Formula
