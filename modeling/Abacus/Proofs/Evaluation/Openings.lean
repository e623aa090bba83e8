import Mathlib.Data.List.Perm.Subperm
import Mathlib.Data.List.Nodup
import Abacus.Proofs.Evaluation.Calls
import Abacus.Proofs.Grammar.Diagnosis

/-!
# Each parenthesis opens the argument list of one call

A call is made of a name that was read before, and a name is called once: the names that may still
be called and those that have been called are at different tokens of the text
(`Evaluation.callees_foldl`). Behind the name stands the parenthesis that opens the argument list
(`exists_opens_of_mem_calls`). An evaluation therefore makes no more calls than its text has opening
parentheses (`length_calls_le`).
-/
namespace Abacus.Formula

variable {φ ε : Type}

def Enclosure.callee? : Enclosure φ → Option Nat
  | .group _ => none
  | .call _ pos _ _ => some pos

namespace State

/-- The positions of the names that may still be called: a name that was just read, and those whose
argument lists are open. -/
def callees (s : State φ) : List Nat :=
  match s.phase with
  | .name _ pos => pos :: s.enclosures.filterMap Enclosure.callee?
  | _ => s.enclosures.filterMap Enclosure.callee?

end State

/-- With a token at `p`, no other name comes to those that may be called, and what is called is the
first of them. -/
inductive Step.Consumes (p : Nat) (ps : List Nat) : Step φ → Prop
  | next {s : State φ} (hs : s.callees.Sublist (p :: ps)) : Consumes p ps (.next s)
  | call {y : Call φ} {s : State φ} (hs : ps = y.pos :: s.callees) : Consumes p ps (.call y s)
  | stop (r : Ending) : Consumes p ps (.stop r)

namespace State

variable {symbols : Symbols φ}

theorem consumes_close (p : Nat) (y : Call φ) (outer : RunningSum) (around : List (Enclosure φ)) :
    (close y outer around).Consumes p (y.pos :: around.filterMap Enclosure.callee?) := by
  unfold close
  split
  · exact .call rfl
  · exact .stop _

theorem consumes_readOperand (s : State φ) (x : Lexeme) :
    (s.readOperand symbols x).Consumes x.pos (s.enclosures.filterMap Enclosure.callee?) := by
  obtain ⟨t, pos⟩ := x
  cases t with
  | word w =>
    simp only [readOperand, readWord]
    split
    · split
      · exact .next (List.sublist_cons_self _ _)
      · exact .stop _
      · exact .stop _
    · split
      · exact .next (List.sublist_cons_self _ _)
      · exact .next (List.Sublist.refl _)
  | sign minus => exact .next (List.sublist_cons_self _ _)
  | opening => exact .next (List.sublist_cons_self _ _)
  | _ => exact .stop _

theorem consumes_readOperator (s : State φ) (x : Lexeme) (p : Int) :
    (s.readOperator x p).Consumes x.pos (s.enclosures.filterMap Enclosure.callee?) := by
  obtain ⟨phase, sum, enclosures⟩ := s
  unfold readOperator
  split
  · exact .next (List.sublist_cons_self _ _)
  · exact .next (List.sublist_cons_self _ _)
  · next he =>
    obtain rfl : enclosures = _ := he
    exact .next (List.sublist_cons_self _ _)
  · next f pos args outer around _ he =>
    obtain rfl : enclosures = _ := he
    exact consumes_close x.pos ⟨f, args ++ [sum.add p], pos, x.pos⟩ outer around
  · next he =>
    obtain rfl : enclosures = _ := he
    exact .next (List.sublist_cons_self _ _)
  · exact .stop _

theorem consumes_read (s : State φ) (x : Lexeme) :
    (s.read symbols x).Consumes x.pos s.callees := by
  obtain ⟨phase, sum, enclosures⟩ := s
  cases phase with
  | arguments =>
    simp only [read]
    split
    · next f pos args outer around _ =>
      exact consumes_close x.pos ⟨f, args, pos, x.pos⟩ outer around
    · exact consumes_readOperand _ x
  | operand => exact consumes_readOperand _ x
  | name n pos =>
    simp only [read]
    split
    · exact .next (List.sublist_cons_self _ _)
    · exact .stop _
    · exact .stop _
  | primary v =>
    simp only [read]
    split
    · exact .stop _
    · split
      · exact consumes_readOperator ⟨.primary v, sum, enclosures⟩ x _
      · exact .stop _
  | product p => exact consumes_readOperator _ x p

theorem callees_of_receive {s s' : State φ} {v : Int} (h : s.receive v = .ok s') :
    s'.callees.Sublist s.callees := by
  obtain ⟨phase, sum, enclosures⟩ := s
  rcases State.receive_cases ⟨phase, sum, enclosures⟩ v with ⟨p, -, hok⟩ | ⟨e, -, herror⟩
  · obtain rfl := Except.ok.inj (hok.symm.trans h)
    cases phase with
    | name n pos => exact List.sublist_cons_self _ _
    | _ => exact List.Sublist.refl _
  · cases herror.symm.trans h

end State

namespace Status

def callees : Status φ → List Nat
  | .reading s => s.callees
  | .ended _ => []

theorem callees_resume (s : State φ) (r : Except Fault Int) :
    (s.resume r).callees.Sublist s.callees := by
  unfold State.resume
  split
  · exact List.nil_sublist _
  · split
    · next hreceive => exact State.callees_of_receive hreceive
    · exact List.nil_sublist _

end Status

namespace Evaluation

def callees (e : Evaluation φ ε) : List Nat := e.status.callees ++ e.calls.map Call.pos

/-- At most the position of the token comes to those of the names. -/
theorem callees_advance (h : Host φ ε) (e : Evaluation φ ε) (x : Lexeme) :
    (e.advance h x).callees.Subperm (x.pos :: e.callees) := by
  obtain ⟨status, calls, c⟩ := e
  cases status with
  | ended r => exact (List.sublist_cons_self _ _).subperm
  | reading s =>
    have hconsumes : (s.read c.symbols x).Consumes x.pos s.callees := s.consumes_read x
    simp only [advance]
    cases hread : s.read c.symbols x with
    | next s' =>
      rw [hread] at hconsumes
      cases hconsumes with
      | next hs => exact (hs.append_right (calls.map Call.pos)).subperm
    | stop r =>
      refine List.Sublist.subperm (.cons _ ?_)
      exact List.sublist_append_right s.callees (calls.map Call.pos)
    | call y s' =>
      rw [hread] at hconsumes
      cases hconsumes with
      | call hs =>
        -- The name that is called changes from the open ones to those that have been called.
        have hsub := (Status.callees_resume s' (y.run h c).1).append_right
          (y.pos :: calls.map Call.pos)
        have hperm : (s'.callees ++ y.pos :: calls.map Call.pos).Perm
            (s.callees ++ calls.map Call.pos) := by
          rw [hs]
          exact List.perm_middle
        exact (hsub.subperm.trans hperm.subperm).trans (List.sublist_cons_self _ _).subperm

theorem callees_foldl (h : Host φ ε) (xs : List Lexeme) (e : Evaluation φ ε) :
    (xs.foldl (advance h) e).callees.Subperm (xs.map Lexeme.pos ++ e.callees) := by
  induction xs generalizing e with
  | nil => exact List.Subperm.refl _
  | cons x xs ih =>
    refine (ih (e.advance h x)).trans ?_
    refine ((List.subperm_append_left _).mpr (callees_advance h e x)).trans ?_
    exact List.perm_middle.subperm

end Evaluation

/-- No name is called twice. -/
theorem nodup_calls_pos (h : Host φ ε) (text : List Char) (c : Calculator φ ε) :
    ((evaluation h text c).calls.map Call.pos).Nodup := by
  have hpositions : ((tokens 0 text).map Lexeme.pos).Nodup :=
    (List.pairwise_map.mpr (pairwise_tokens 0 text)).nodup
  have hcallees := Evaluation.callees_foldl h (tokens 0 text) { calculator := c }
  rw [show ({ calculator := c } : Evaluation φ ε).callees = [] from rfl, List.append_nil]
    at hcallees
  obtain ⟨l, hperm, hsub⟩ := hcallees
  have hnodup := hperm.nodup_iff.mp (hpositions.sublist hsub)
  exact (List.nodup_append.mp hnodup).2.1

/-- The position of what stands behind the word at `p` and the blanks that follow it. -/
def openingAt (text : List Char) (p : Nat) : Nat := text.length - (behindWord text p).length

/-- Among the tokens there is a word at `p` with a parenthesis behind it, which opens at `o`. -/
def Opens (xs : List Lexeme) (p o : Nat) : Prop :=
  ∃ before w behind, xs = before ++ ⟨.word w, p⟩ :: ⟨.opening, o⟩ :: behind

theorem Opens.append {xs : List Lexeme} {p o : Nat} (h : Opens xs p o) (ys : List Lexeme) :
    Opens (xs ++ ys) p o := by
  obtain ⟨before, w, behind, rfl⟩ := h
  exact ⟨before, w, behind ++ ys, by simp⟩

/-- The parenthesis stands in the text where `openingAt` tells. -/
theorem Opens.openingAt_eq {text : List Char} {p o : Nat} (h : Opens (tokens 0 text) p o) :
    openingAt text p = o ∧ text[o]? = some '(' := by
  obtain ⟨before, w, behind, htokens⟩ := h
  have hsplit : tokens 0 text = (before ++ [⟨.word w, p⟩]) ++ ⟨.opening, o⟩ :: behind := by
    rw [htokens, List.append_assoc, List.singleton_append]
  obtain ⟨as, bs, hcut⟩ := exists_cut htokens
  obtain ⟨as', bs', hcut'⟩ := exists_cut hsplit
  have hw : (Token.word w).Proper :=
    proper_of_mem_tokens (htokens ▸ List.mem_append_right _ List.mem_cons_self)
  obtain ⟨rest, hrest, -, hlength⟩ := exists_of_tokens_opening hcut.behind_eq
  refine ⟨?_, hcut'.getElem?_eq trivial⟩
  have htext := congrArg List.length hcut.text_eq
  have hpos : p = 0 + as.length := hcut.pos_eq
  rw [List.length_append, List.length_append] at htext
  change p + w.length + bs.length = _ at hlength
  change text.length = as.length + (w.length + bs.length) at htext
  rw [openingAt, (hcut.wordAt_eq hw).2, hrest]
  omega

/-- Behind different words different parentheses stand. -/
theorem Opens.lt {text : List Char} {p p' o o' : Nat} (h : Opens (tokens 0 text) p o)
    (h' : Opens (tokens 0 text) p' o') (hlt : p < p') : o < o' := by
  have hpairwise := pairwise_tokens 0 text
  obtain ⟨before, w, behind, htokens⟩ := h
  obtain ⟨before', w', behind', htokens'⟩ := h'
  have hmem : (⟨.word w', p'⟩ : Lexeme) ∈ tokens 0 text :=
    htokens' ▸ List.mem_append_right _ List.mem_cons_self
  have hlt' : p' < o' := by
    rw [htokens'] at hpairwise
    exact (List.pairwise_cons.mp (List.pairwise_append.mp hpairwise).2.1).1 _ List.mem_cons_self
  rw [htokens] at hpairwise hmem
  obtain ⟨-, hright, hleft⟩ := List.pairwise_append.mp hpairwise
  have hbehind : (⟨.word w', p'⟩ : Lexeme) ∈ behind := by
    rcases List.mem_append.mp hmem with hmem | hmem
    · -- What stands before the first word has smaller positions.
      exact absurd (hleft _ hmem _ List.mem_cons_self) (Nat.not_lt.mpr hlt.le)
    · rcases List.mem_cons.mp hmem with heq | hmem
      · exact absurd (congrArg Lexeme.pos heq) hlt.ne'
      · rcases List.mem_cons.mp hmem with heq | hmem
        · cases heq
        · exact hmem
  have hlt₂ : o < p' := (List.pairwise_cons.mp (List.pairwise_cons.mp hright).2).1 _ hbehind
  exact hlt₂.trans hlt'

theorem Frame.Accords.opens {h : Host φ ε} {c : Calculator φ ε} {frames : List Frame}
    {f : Routine φ} {pos : Nat} {args : List Int} {outer : RunningSum}
    {around : List (Enclosure φ)}
    (hes : Frame.Accords h c frames (.call f pos args outer :: around)) :
    ∃ o, Opens (lexemesOf frames) pos o := by
  cases hes with
  | @call stem _ x _ opening args frames _ _ _ _ _ _ _ _ _ _ =>
    have hframe : ∃ inner, (Frame.call stem (.name x pos) opening args).lexemes =
        stem.lexemes ++ ⟨.word x.name.toList, pos⟩ :: ⟨.opening, opening⟩ :: inner :=
      ⟨_, List.append_assoc stem.lexemes _ _⟩
    obtain ⟨inner, hinner⟩ := hframe
    refine ⟨opening, lexemesOf frames ++ stem.lexemes, x.name.toList, inner, ?_⟩
    rw [lexemesOf, hinner, List.append_assoc]

theorem Draft.Accords.frames {h : Host φ ε} {c c₁ : Calculator φ ε} {d : Draft} {s : State φ}
    (hs : d.Accords h c c₁ s) : Frame.Accords h c d.frames s.enclosures := by
  cases hs with
  | arguments _ hes => exact hes
  | operand _ hes => exact hes
  | name _ hes _ _ => exact hes
  | value _ hes _ => exact hes
  | term _ _ hes => exact hes

theorem State.exists_enclosure_of_closed? {s : State φ} {x : Lexeme} {y : Call φ}
    (hy : s.closed? x = some y) :
    ∃ args outer around, s.enclosures = .call y.routine y.pos args outer :: around := by
  unfold closed? at hy
  split at hy
  · next henclosures =>
    obtain rfl := Option.some.inj hy
    exact ⟨_, _, _, henclosures⟩
  · next henclosures =>
    obtain ⟨p, -, rfl⟩ := Option.map_eq_some_iff.mp hy
    exact ⟨_, _, _, henclosures⟩
  · next henclosures =>
    obtain rfl := Option.some.inj hy
    exact ⟨_, _, _, henclosures⟩
  · cases hy

/-- Behind the name that is called a parenthesis opens. -/
theorem exists_opens_of_mem_calls {h : Host φ ε} {text : List Char} {c : Calculator φ ε}
    {y : Call φ} (hy : y ∈ (evaluation h text c).calls) : ∃ o, Opens (tokens 0 text) y.pos o := by
  obtain ⟨later, earlier, hcalls⟩ := List.append_of_mem hy
  obtain ⟨before, x, behind, s, s', htokens, hbefore, hread⟩ :=
    Evaluation.exists_of_calls_foldl hcalls
  obtain ⟨args, outer, around, henclosures⟩ :=
    State.exists_enclosure_of_closed? (State.of_read_call hread).2.1
  have hproper : ∀ z ∈ before, z.token.Proper := fun z hz =>
    proper_of_mem_tokens (htokens ▸ List.mem_append_left _ hz)
  obtain ⟨d, hrun, hd⟩ := Stands.exists_draft ⟨earlier, hbefore⟩ hproper
  have hframes := hd.frames
  rw [henclosures] at hframes
  obtain ⟨o, ho⟩ := hframes.opens
  refine ⟨o, ?_⟩
  have hlexemes : before = d.lexemes := (Draft.run_invariant Draft.tidy_initial hrun).2.symm
  rw [htokens, hlexemes, Draft.lexemes, List.append_assoc, List.append_assoc]
  exact ho.append _

theorem length_le_count {α : Type} [BEq α] [LawfulBEq α] {l : List α} {a : α} {ps : List Nat}
    (hps : ps.Nodup) (ha : ∀ p ∈ ps, l[p]? = some a) : ps.length ≤ l.count a := by
  have hsubset : ps ⊆ l.idxsOf a := by
    intro p hp
    obtain ⟨hlt, hget⟩ := List.getElem?_eq_some_iff.mp (ha p hp)
    exact List.mem_idxsOf_iff_exists_getElem_pos.mpr ⟨hlt, beq_iff_eq.mpr hget⟩
  calc ps.length
      ≤ (l.idxsOf a).length := (hps.subperm hsubset).length_le
    _ = l.count a := List.length_idxsOf

/-- Each call of an evaluation has an opening parenthesis of its own in the text. -/
theorem calls_openings (h : Host φ ε) (text : List Char) (c : Calculator φ ε) :
    (∀ y ∈ (evaluation h text c).calls, text[openingAt text y.pos]? = some '(') ∧
      ((evaluation h text c).calls.map fun y => openingAt text y.pos).Nodup := by
  refine ⟨fun y hy => ?_, ?_⟩
  · obtain ⟨o, ho⟩ := exists_opens_of_mem_calls hy
    rw [ho.openingAt_eq.1]
    exact ho.openingAt_eq.2
  · have hdistinct := List.pairwise_map.mp (nodup_calls_pos h text c)
    refine List.pairwise_map.mpr (hdistinct.imp_of_mem fun {y y'} hy hy' hne => ?_)
    obtain ⟨o, ho⟩ := exists_opens_of_mem_calls hy
    obtain ⟨o', ho'⟩ := exists_opens_of_mem_calls hy'
    rw [ho.openingAt_eq.1, ho'.openingAt_eq.1]
    rcases Nat.lt_or_gt_of_ne hne with hlt | hlt
    · exact (ho.lt ho' hlt).ne
    · exact (ho'.lt ho hlt).ne'

theorem length_calls_le (h : Host φ ε) (text : List Char) (c : Calculator φ ε) :
    (evaluation h text c).calls.length ≤ text.count '(' := by
  obtain ⟨hopening, hnodup⟩ := calls_openings h text c
  have hplaces : ∀ p ∈ (evaluation h text c).calls.map fun y => openingAt text y.pos,
      text[p]? = some '(' := List.forall_mem_map.mpr hopening
  have hle := length_le_count hnodup hplaces
  rwa [List.length_map] at hle

end Abacus.Formula
