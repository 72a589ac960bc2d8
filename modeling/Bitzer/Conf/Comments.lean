import Mathlib.Data.List.DropRight
import Bitzer.Conf.Lexemes
import Bitzer.Conf.Meaning

/-!
# Lines and comments

No lexeme goes beyond the end of its line, so a text is scanned line by line.
A comment line gives no token, but only where its newline is there to match.
-/

namespace Bitzer

open Lib Lib.Regex

section
variable {bol : Bool} {u v w s rest : Str} {x : Lexeme} {a : UInt8}

/-! ## The scan of a line -/

/-- A lexeme that begins before the end of its line ends there at the latest. -/
theorem lexeme_in_line (bol : Bool) (hu : u ≠ []) :
    ∃ w v x, u = w ++ v ∧ w ≠ [] ∧
      ∀ rest, lexeme bol (u ++ 10 :: rest) = (w.length, endsLine w, x) := by
  have hs : u ++ [10] ≠ [] := by simp
  obtain ⟨w, v, x, heq, hw, rfl, hlex, hcase⟩ := lexeme_cases bol hs
  have hin : ∃ v', u = x.text ++ v' := by
    rcases List.append_eq_append_iff.mp heq with ⟨c, hc, hv⟩ | ⟨c, hc, -⟩
    swap
    · exact ⟨c, hc⟩
    cases c with
    | nil => exact ⟨[], by rw [hc]; simp⟩
    | cons b c =>
        -- the lexeme would be the line with its newline
        obtain ⟨rfl, hcv⟩ := List.cons.inj hv
        obtain ⟨rfl, rfl⟩ := List.append_eq_nil_iff.mp hcv.symm
        have hlong : x.text ≠ [10] := by
          rw [hc]
          intro h
          have := congrArg List.length h
          simp [hu] at this
        rcases hcase with ⟨r, hwin, -⟩ | ⟨a, ha, -⟩
        · have htrail := hwin.trail
          have hmem := hwin.matched
          rw [List.append_nil] at htrail hmem
          rw [List.take_of_length_le (by omega)] at hmem
          obtain rfl := newline_match hwin.mem hmem (by rw [hc]; simp) hlong
          exact absurd htrail (Nat.not_succ_le_self _)
        · rw [ha] at hc
          have := congrArg List.length hc
          simp [hu] at this
  obtain ⟨v', hv'⟩ := hin
  refine ⟨x.text, v', x, hv', hw, fun rest => ?_⟩
  have hcongr : lexeme bol (u ++ [10] ++ rest) = lexeme bol (u ++ [10] ++ []) :=
    lexeme_congr (by simp) (bounded_line hu) (bounded_line hu)
  rw [List.append_nil, List.append_assoc] at hcongr
  exact hcongr.trans hlex

/-- The lines of a text are scanned one by one. -/
theorem tokensFrom_line (h10 : 10 ∉ u) :
    tokensFrom bol (u ++ 10 :: rest) = tokensFrom bol (u ++ [10]) ++ tokensFrom true rest := by
  induction hn : u.length using Nat.strong_induction_on generalizing bol u with
  | _ n ih =>
    by_cases hu : u = []
    · rw [hu, List.nil_append, List.nil_append, tokensFrom_newline, tokensFrom_newline]
      rfl
    · obtain ⟨w, v, x, rfl, hw, hlex⟩ := lexeme_in_line bol hu
      have hlt : v.length < n := by
        rw [← hn, List.length_append]
        have := List.length_pos_iff.mpr hw
        omega
      have hstep : ∀ rest, tokensFrom bol (w ++ v ++ 10 :: rest) =
          x.token.toList ++ tokensFrom (endsLine w) (v ++ 10 :: rest) := by
        intro rest
        have h := hlex rest
        rw [List.append_assoc] at h ⊢
        exact tokensFrom_lexeme hw h
      have hv : 10 ∉ v := fun h => h10 (List.mem_append_right _ h)
      rw [hstep, hstep, ih _ hlt hv rfl, List.append_assoc]

/-- A comment is matched where a line begins and ends with a newline. -/
theorem comment_take (h10 : 10 ∉ u) :
    (35 :: (u ++ 10 :: rest)).take (u.length + 2) ∈ Pattern.comment.lang := by
  have htake : (35 :: (u ++ 10 :: rest)).take (u.length + 2) = 35 :: (u ++ [10]) := by
    rw [List.take_succ_cons, List.take_append, List.take_of_length_le (by omega)]
    simp
  rw [htake]
  exact mem_comment.mpr ⟨u, rfl, h10⟩

/-- A comment line gives no token. -/
theorem tokensFrom_comment (h10 : 10 ∉ u) : tokensFrom true (35 :: (u ++ [10])) = [] := by
  obtain ⟨w, v, x, heq, hw, rfl, hlex, hcase⟩ :=
    lexeme_cases true (List.cons_ne_nil 35 (u ++ [10]))
  have hmatch : (35 :: (u ++ [10])).take (u.length + 2) ∈ Pattern.comment.lang := comment_take h10
  rcases hcase with ⟨r, hwin, hx⟩ | ⟨a, -, hno, -⟩
  swap
  · exact absurd hmatch (hno commentRule (mem_rules_iff.mpr (Or.inr rfl)) (fun _ => rfl) _)
  have hlen : (x.text ++ v).length = u.length + 2 := by simp [← heq]
  rcases mem_rules_iff.mp hwin.mem with hr | rfl
  · -- no other rule matches a text that begins with `#`
    have hmem := hwin.matched
    have hpos := List.length_pos_iff.mpr hw
    obtain ⟨k, hk⟩ : ∃ k, x.text.length + r.trail = k + 1 := ⟨x.text.length + r.trail - 1, by omega⟩
    rw [← heq, hk, List.take_succ_cons] at hmem
    exact absurd hmem (not_mem_of_canStart line_rules.2 r hr)
  · -- the comment is the line without its newline
    have hlong := hwin.longest commentRule hwin.mem hwin.atBol (u.length + 2)
    have htrail := hwin.trail
    rw [← heq] at hlong
    have hge : u.length + 1 ≤ x.text.length := by
      by_contra hlt
      exact hlong (by simp only [commentRule]; omega) (by simp) hmatch
    simp only [commentRule] at htrail
    have hv : v.length = 1 := by
      rw [List.length_append] at hlen htrail
      omega
    obtain ⟨c, rfl⟩ := List.length_eq_one_iff.mp hv
    obtain rfl : c = 10 := by
      have hlast := congrArg List.getLast? heq
      rw [List.getLast?_concat, ← List.cons_append, List.getLast?_concat] at hlast
      exact (Option.some.inj hlast).symm
    rw [heq] at hlex ⊢
    rw [tokensFrom_lexeme hw hlex, hx, tokensFrom_newline]
    rfl

end

/-! ## The text without its comment lines -/

/-- Where in a line: at its beginning, in a comment line, in another. -/
inductive LinePos where
  | start
  | comment
  | text
  deriving DecidableEq

/-- The text without the lines that begin with `#` and their newlines. -/
def uncomment : LinePos → Str → Str
  | _, [] => []
  | .start, c :: s =>
      if c = 35 then uncomment .comment s
      else c :: uncomment (if c = 10 then .start else .text) s
  | .comment, c :: s => uncomment (if c = 10 then .start else .comment) s
  | .text, c :: s => c :: uncomment (if c = 10 then .start else .text) s

/-- What follows the last newline. -/
def lastLine (s : Str) : Str := s.rtakeWhile fun c => c != 10

section
variable {u s rest : Str}

theorem uncomment_comment (h10 : 10 ∉ u) :
    uncomment .comment (u ++ 10 :: rest) = uncomment .start rest := by
  induction u with
  | nil => rfl
  | cons c u ih =>
      simp only [List.mem_cons, not_or] at h10
      rw [List.cons_append, uncomment, if_neg (Ne.symm h10.1), ih h10.2]

theorem uncomment_text (h10 : 10 ∉ u) :
    uncomment .text (u ++ 10 :: rest) = u ++ 10 :: uncomment .start rest := by
  induction u with
  | nil => rfl
  | cons c u ih =>
      simp only [List.mem_cons, not_or] at h10
      rw [List.cons_append, uncomment, if_neg (Ne.symm h10.1), ih h10.2]
      rfl

theorem uncomment_comment_end (h10 : 10 ∉ u) : uncomment .comment u = [] := by
  induction u with
  | nil => rfl
  | cons c u ih =>
      simp only [List.mem_cons, not_or] at h10
      rw [uncomment, if_neg (Ne.symm h10.1), ih h10.2]

theorem uncomment_text_end (h10 : 10 ∉ u) : uncomment .text u = u := by
  induction u with
  | nil => rfl
  | cons c u ih =>
      simp only [List.mem_cons, not_or] at h10
      rw [uncomment, if_neg (Ne.symm h10.1), ih h10.2]

theorem lastLine_line : lastLine (u ++ 10 :: rest) = lastLine rest := by
  unfold lastLine List.rtakeWhile
  rw [List.reverse_append, List.reverse_cons, List.append_assoc, List.takeWhile_append]
  split
  · rename_i hall
    have heq := (List.takeWhile_prefix (fun c => c != 10)).eq_of_length hall
    rw [heq, List.singleton_append, List.takeWhile_cons_of_neg (by simp), List.append_nil]
  · rfl

theorem lastLine_end (h10 : 10 ∉ u) : lastLine u = u := by
  refine List.rtakeWhile_eq_self_iff.mpr fun c hc => ?_
  have hne : c ≠ 10 := fun h => h10 (h ▸ hc)
  simpa using hne

/-- A text is a line and the rest, or has no newline. -/
theorem line_cases (s : Str) : 10 ∉ s ∨ ∃ u rest, s = u ++ 10 :: rest ∧ 10 ∉ u := by
  by_cases h : 10 ∈ s
  · exact Or.inr (List.eq_append_cons_of_mem h)
  · exact Or.inl h

/-- The tokens of a text are those of its other lines, and what the scanner makes
of a comment at its end that has no newline. -/
theorem tokensFrom_uncomment (s : Str) :
    tokensFrom true s = tokensFrom true (uncomment .start s) ++
      if (lastLine s).head? = some 35 then tokensFrom true (lastLine s) else [] := by
  induction hn : s.length using Nat.strong_induction_on generalizing s with
  | _ n ih =>
    rcases line_cases s with h10 | ⟨u, rest, rfl, h10⟩
    · rw [lastLine_end h10]
      cases s with
      | nil => rfl
      | cons c u =>
          simp only [List.mem_cons, not_or] at h10
          rw [uncomment]
          by_cases hc : c = 35
          · rw [if_pos hc, if_pos (by simp [hc]), uncomment_comment_end h10.2]
            rfl
          · have hhead : (c :: u).head? ≠ some 35 := by simpa using hc
            rw [if_neg hc, if_neg (Ne.symm h10.1), uncomment_text_end h10.2, if_neg hhead,
              List.append_nil]
    · have hlt : rest.length < n := by
        rw [← hn, List.length_append, List.length_cons]
        omega
      rw [tokensFrom_line h10, ih _ hlt rest rfl, lastLine_line, ← List.append_assoc]
      congr 1
      cases u with
      | nil =>
          rw [List.nil_append, List.nil_append, uncomment, if_neg (by decide), if_pos rfl]
          rw [tokensFrom_newline, tokensFrom_newline]
          rfl
      | cons c u =>
          simp only [List.mem_cons, not_or] at h10
          rw [List.cons_append, List.cons_append, uncomment]
          by_cases hc : c = 35
          · rw [if_pos hc, hc, tokensFrom_comment h10.2, uncomment_comment h10.2]
            rfl
          · rw [if_neg hc, if_neg (Ne.symm h10.1), uncomment_text h10.2, ← List.cons_append,
              ← List.cons_append]
            exact (tokensFrom_line (by simpa using h10)).symm

/-! ## Comments and the parse -/

/-- With its comment lines and without, the text is the same configuration. -/
def SameWithout (s : Str) : Prop :=
  ∀ st, yyparse .tasks ⟨[], none⟩ (yylex s) = .accept st ↔
    yyparse .tasks ⟨[], none⟩ (yylex (uncomment .start s)) = .accept st

/-- Tokens after a complete configuration add a task. -/
theorem accept_append {ts us : List Token} {st : ParseState}
    (hts : yyparse .tasks ⟨[], none⟩ ts = .accept st)
    (h : yyparse .tasks ⟨[], none⟩ (ts ++ us) = .accept st) : us = [] := by
  obtain ⟨f, hf, hst⟩ := parser_iff.mp hts
  rw [yyparse_append hf.run hst] at h
  obtain ⟨-, l, -, -, rfl, -⟩ := accept_conf hts
  obtain ⟨bs, tasks, hbs, -, heq, hmean⟩ := accept_conf h
  have hnil : tasks = [] := by
    have hl := congrArg ParseState.tasksList heq
    exact List.self_eq_append_left.mp hl
  subst hnil
  obtain rfl : bs = [] :=
    List.eq_nil_of_length_eq_zero (by simpa using hmean.length_eq.symm)
  exact hbs.eq_nil

/-- The comment lines of a text have no effect if and only if the text does not
end in a comment that lacks its newline, or the scanner makes nothing of that
comment, or the text is no configuration with it nor without it. -/
theorem same_without_iff (s : Str) :
    SameWithout s ↔
      (lastLine s).head? ≠ some 35 ∨ tokensFrom true (lastLine s) = [] ∨
        (¬IsConf (yylex s) ∧ ¬IsConf (yylex (uncomment .start s))) := by
  have htokens : yylex s = yylex (uncomment .start s) ++
      if (lastLine s).head? = some 35 then tokensFrom true (lastLine s) else [] :=
    tokensFrom_uncomment s
  constructor
  · intro h
    by_contra hno
    simp only [not_or, not_and_or, not_not] at hno
    obtain ⟨hlast, hne, hconf⟩ := hno
    rw [if_pos hlast] at htokens
    -- one of the two is accepted, so both are, with the same tasks
    obtain ⟨st, hst, hst'⟩ : ∃ st, yyparse .tasks ⟨[], none⟩ (yylex s) = .accept st ∧
        yyparse .tasks ⟨[], none⟩ (yylex (uncomment .start s)) = .accept st := by
      rcases hconf with hconf | hconf
      · obtain ⟨st, hst⟩ := accept_iff.mpr hconf
        exact ⟨st, hst, (h st).mp hst⟩
      · obtain ⟨st, hst⟩ := accept_iff.mpr hconf
        exact ⟨st, (h st).mpr hst, hst⟩
    rw [htokens] at hst
    exact hne (accept_append hst' hst)
  · rintro (hlast | hnil | ⟨hs, hs'⟩) st
    · rw [if_neg hlast, List.append_nil] at htokens
      rw [htokens]
    · rw [hnil, ite_self, List.append_nil] at htokens
      rw [htokens]
    · exact iff_of_false (fun h => hs (accept_iff.mp ⟨st, h⟩)) fun h => hs' (accept_iff.mp ⟨st, h⟩)

/-- `task{name s;}`, and `#x` on the next line, without a newline. -/
theorem not_sameWithout : ¬∀ s, SameWithout s := by
  intro h
  have hs := h [116, 97, 115, 107, 123, 110, 97, 109, 101, 32, 115, 59, 125, 10, 35, 120]
  have hwith : yylex [116, 97, 115, 107, 123, 110, 97, 109, 101, 32, 115, 59, 125, 10, 35, 120] =
      [.tokenTask, .openBrace, .tokenName, .alphaWord [115], .semicolon, .endBrace,
        .alphaWord [120]] := by decide +kernel
  have hwithout : yylex (uncomment .start
      [116, 97, 115, 107, 123, 110, 97, 109, 101, 32, 115, 59, 125, 10, 35, 120]) =
      [.tokenTask, .openBrace, .tokenName, .alphaWord [115], .semicolon, .endBrace] := by
    decide +kernel
  rw [SameWithout, hwith, hwithout] at hs
  have haccept := (hs _).mpr rfl
  cases haccept

end

end Bitzer
