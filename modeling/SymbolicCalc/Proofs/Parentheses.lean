import SymbolicCalc.Token.Basic
import Mathlib.Data.List.Induction
import Mathlib.Data.Nat.Find

/-!
# Matching parentheses

An opening and a closing parenthesis match if what stands between them is balanced, that is, if no part of it from
its start on closes more groups than it opens, and all that are opened are closed. This looks at the tokens as a
whole. A reader who takes the tokens one after the other keeps the places of the opening parentheses that have no
match yet, the innermost first, and finds by them what the matching says: a closing parenthesis has a match exactly
if there are such places, and then it is the first of them.
-/

namespace SymbolicCalc

namespace Token

/-- How many more opening than closing parentheses the tokens have. -/
def surplus (tokens : List Token) : Int :=
  tokens.countP isOpenParen - tokens.countP isCloseParen

/-- No part of the tokens from their start on has more closing than opening parentheses. -/
def Covered (tokens : List Token) : Prop :=
  ∀ n, 0 ≤ surplus (tokens.take n)

/-- All groups that the tokens open they close, and they close no others. -/
structure Balanced (tokens : List Token) : Prop where
  covered : Covered tokens
  surplus_eq : surplus tokens = 0

/-- There is an opening parenthesis at the position `i`. -/
def OpensAt (tokens : List Token) (i : Nat) : Prop :=
  ∃ token, tokens[i]? = some token ∧ token.kind = .openParen

/-- There is a closing parenthesis at the position `j`. -/
def ClosesAt (tokens : List Token) (j : Nat) : Prop :=
  ∃ token, tokens[j]? = some token ∧ token.kind = .closeParen

/-- The opening parenthesis at `i` and the closing one at `j` match. -/
structure Matches (tokens : List Token) (i j : Nat) : Prop where
  lt : i < j
  opensAt : OpensAt tokens i
  closesAt : ClosesAt tokens j
  balanced : Balanced ((tokens.take j).drop (i + 1))

variable {tokens others : List Token} {token : Token} {i j : Nat}

/-! ## Counting -/

@[simp] theorem surplus_nil : surplus [] = 0 := rfl

@[simp] theorem surplus_append (tokens others : List Token) :
    surplus (tokens ++ others) = surplus tokens + surplus others := by
  simp only [surplus, List.countP_append]
  omega

theorem surplus_open (h : token.kind = .openParen) : surplus [token] = 1 := by
  simp [surplus, isOpenParen, isCloseParen, h]

theorem surplus_close (h : token.kind = .closeParen) : surplus [token] = -1 := by
  simp [surplus, isOpenParen, isCloseParen, h]

theorem surplus_inner (hopen : token.kind ≠ .openParen) (hclose : token.kind ≠ .closeParen) :
    surplus [token] = 0 := by
  simp [surplus, isOpenParen, isCloseParen, hopen, hclose]

/-- Only a closing parenthesis lowers the surplus, and only by one. -/
theorem surplus_singleton_cases (token : Token) :
    0 ≤ surplus [token] ∨ token.kind = .closeParen ∧ surplus [token] = -1 := by
  by_cases hclose : token.kind = .closeParen
  · exact .inr ⟨hclose, surplus_close hclose⟩
  · left
    by_cases hopen : token.kind = .openParen
    · rw [surplus_open hopen]
      omega
    · exact Int.le_of_eq (surplus_inner hopen hclose).symm

theorem covered_nil : Covered [] := by
  intro n
  have hnone : surplus (([] : List Token).take n) = 0 := by rw [List.take_nil, surplus_nil]
  exact Int.le_of_eq hnone.symm

theorem Covered.surplus_nonneg (h : Covered tokens) : 0 ≤ surplus tokens := by
  have hall := h tokens.length
  rwa [List.take_length] at hall

theorem Covered.take (h : Covered tokens) (n : Nat) : Covered (tokens.take n) := by
  intro m
  rw [List.take_take]
  exact h _

theorem covered_concat : Covered (tokens ++ [token]) ↔ Covered tokens ∧ 0 ≤ surplus (tokens ++ [token]) := by
  constructor
  · intro h
    refine ⟨fun n => ?_, h.surplus_nonneg⟩
    have hpart := h (min n tokens.length)
    rwa [List.take_append_of_le_length (Nat.min_le_right _ _), ← List.take_take, List.take_length] at hpart
  · rintro ⟨h, hall⟩ n
    by_cases hn : n ≤ tokens.length
    · rw [List.take_append_of_le_length hn]
      exact h n
    · rw [List.take_of_length_le (by rw [List.length_append, List.length_singleton]; omega)]
      exact hall

/-- Where more is closed than was opened, the first closing parenthesis too many has something balanced before it. -/
theorem exists_close_of_not_covered (h : ¬Covered tokens) :
    ∃ k, ClosesAt tokens k ∧ Balanced (tokens.take k) := by
  have hshort : ∃ n, surplus (tokens.take n) < 0 := by
    by_contra hnone
    exact h fun n => Int.not_lt.1 fun hn => hnone ⟨n, hn⟩
  have hfirst := Nat.find_spec hshort
  have hbefore (n : Nat) (hn : n < Nat.find hshort) : 0 ≤ surplus (tokens.take n) :=
    Int.not_lt.1 (Nat.find_min hshort hn)
  generalize Nat.find hshort = first at hfirst hbefore
  cases first with
  | zero =>
    rw [List.take_zero, surplus_nil] at hfirst
    omega
  | succ k =>
    have hk := hbefore k (Nat.lt_succ_self k)
    cases htoken : tokens[k]? with
    | none =>
      have hlength := List.getElem?_eq_none_iff.1 htoken
      rw [List.take_of_length_le (by omega)] at hfirst hk
      omega
    | some token =>
      have htake : tokens.take (k + 1) = tokens.take k ++ [token] := by
        rw [List.take_add_one, htoken]
        rfl
      rw [htake, surplus_append] at hfirst
      rcases surplus_singleton_cases token with hopen | ⟨hclose, hone⟩
      · omega
      · refine ⟨k, ⟨token, htoken, hclose⟩, fun n => ?_, by omega⟩
        rw [List.take_take]
        exact hbefore _ (by omega)

/-! ## Groups that are never closed -/

/-- The group that opens at `i` stays open up to the end of the tokens. -/
def StaysOpen (tokens : List Token) (i : Nat) : Prop :=
  OpensAt tokens i ∧ Covered (tokens.drop (i + 1))

theorem OpensAt.lt_length (h : OpensAt tokens i) : i < tokens.length := by
  obtain ⟨token, htoken, -⟩ := h
  exact (List.getElem?_eq_some_iff.1 htoken).1

theorem opensAt_append (hi : i < tokens.length) : OpensAt (tokens ++ others) i ↔ OpensAt tokens i := by
  unfold OpensAt
  rw [List.getElem?_append_left hi]

/-- A group stays open exactly if its parenthesis has no match. -/
theorem staysOpen_iff : StaysOpen tokens i ↔ OpensAt tokens i ∧ ∀ j, ¬Matches tokens i j := by
  constructor
  · rintro ⟨hopen, hcovered⟩
    refine ⟨hopen, fun j hmatch => ?_⟩
    obtain ⟨token, htoken, hclose⟩ := hmatch.closesAt
    have hlt := hmatch.lt
    -- up to the match and with it, one group more is closed than opened
    have hinside : (tokens.drop (i + 1)).take (j - i) = (tokens.take j).drop (i + 1) ++ [token] := by
      have hlast : (tokens.drop (i + 1))[j - (i + 1)]? = some token := by
        rw [List.getElem?_drop, Nat.add_sub_cancel' hlt, htoken]
      rw [show j - i = j - (i + 1) + 1 by omega, List.take_add_one, hlast, List.drop_take]
      rfl
    have hpart := hcovered (j - i)
    rw [hinside, surplus_append, hmatch.balanced.surplus_eq, surplus_close hclose] at hpart
    omega
  · rintro ⟨hopen, hnone⟩
    refine ⟨hopen, ?_⟩
    by_contra hshort
    obtain ⟨k, ⟨token, htoken, hclose⟩, hbalanced⟩ := exists_close_of_not_covered hshort
    rw [List.getElem?_drop] at htoken
    have hinside : (tokens.take (i + 1 + k)).drop (i + 1) = (tokens.drop (i + 1)).take k := by
      rw [List.drop_take, Nat.add_sub_cancel_left]
    rw [← hinside] at hbalanced
    exact hnone (i + 1 + k) ⟨by omega, hopen, ⟨token, htoken, hclose⟩, hbalanced⟩

/-- One more token leaves a group open, unless the group is the innermost one and the token closes it. -/
theorem staysOpen_concat (hi : i < tokens.length) :
    StaysOpen (tokens ++ [token]) i ↔
      StaysOpen tokens i ∧ 0 ≤ surplus (tokens.drop (i + 1)) + surplus [token] := by
  unfold StaysOpen
  rw [opensAt_append hi, List.drop_append_of_le_length (by omega), covered_concat, surplus_append, and_assoc]

/-- At the last token no group is open but the one that it opens. -/
theorem staysOpen_concat_length :
    StaysOpen (tokens ++ [token]) tokens.length ↔ token.kind = .openParen := by
  have hlast : (tokens ++ [token])[tokens.length]? = some token := by
    rw [List.getElem?_append_right (Nat.le_refl _), Nat.sub_self]
    rfl
  have hrest : (tokens ++ [token]).drop (tokens.length + 1) = [] :=
    List.drop_of_length_le (by simp)
  constructor
  · rintro ⟨⟨other, hother, hkind⟩, -⟩
    rw [hlast] at hother
    cases hother
    exact hkind
  · intro hkind
    refine ⟨⟨token, hlast, hkind⟩, ?_⟩
    rw [hrest]
    exact covered_nil

/-! ## Reading token by token -/

/-- The positions `stack` are those of the groups that are open after the tokens, the innermost first. -/
structure Unclosed (tokens : List Token) (stack : List Nat) : Prop where
  covered : Covered tokens
  surplus_eq : surplus tokens = stack.length
  decreasing : stack.Pairwise (· > ·)
  mem_iff : ∀ i, i ∈ stack ↔ StaysOpen tokens i
  /-- Behind the parenthesis of a group, as many are left open as there are groups inside it. -/
  surplus_drop : ∀ m i : Nat, stack[m]? = some i → surplus (tokens.drop (i + 1)) = m

namespace Unclosed

variable {stack : List Nat}

theorem nil : Unclosed [] [] := by
  refine ⟨covered_nil, rfl, .nil, fun i => ⟨nofun, ?_⟩, nofun⟩
  rintro ⟨⟨token, htoken, -⟩, -⟩
  cases htoken

theorem lt_length (h : Unclosed tokens stack) (hi : i ∈ stack) : i < tokens.length :=
  ((h.mem_iff i).1 hi).1.lt_length

/-- What changes with one more token for the groups that were open. -/
theorem surplus_drop_concat (h : Unclosed tokens stack) {m : Nat} (hi : stack[m]? = some i) :
    surplus ((tokens ++ [token]).drop (i + 1)) = m + surplus [token] := by
  have hlt := h.lt_length (List.mem_of_getElem? hi)
  rw [List.drop_append_of_le_length (by omega), surplus_append, h.surplus_drop m i hi]

theorem covered_concat (h : Unclosed tokens stack) (htoken : 0 ≤ stack.length + surplus [token]) :
    Covered (tokens ++ [token]) := by
  refine Token.covered_concat.2 ⟨h.covered, ?_⟩
  rw [surplus_append, h.surplus_eq]
  exact htoken

theorem mem_iff_concat (h : Unclosed tokens stack) (hi : i ≠ tokens.length) :
    StaysOpen (tokens ++ [token]) i ↔
      i ∈ stack ∧ 0 ≤ surplus (tokens.drop (i + 1)) + surplus [token] := by
  by_cases hlt : i < tokens.length
  · rw [staysOpen_concat hlt, h.mem_iff]
  · constructor
    · intro hopen
      have hlength := hopen.1.lt_length
      rw [List.length_append, List.length_singleton] at hlength
      omega
    · rintro ⟨hmem, -⟩
      exact absurd (h.lt_length hmem) hlt

theorem inner (h : Unclosed tokens stack) (hopen : token.kind ≠ .openParen)
    (hclose : token.kind ≠ .closeParen) : Unclosed (tokens ++ [token]) stack := by
  have htoken := surplus_inner hopen hclose
  refine ⟨h.covered_concat (by omega), ?_, h.decreasing, fun i => ?_, fun m i hi => ?_⟩
  · rw [surplus_append, h.surplus_eq, htoken, Int.add_zero]
  · by_cases hi : i = tokens.length
    · subst hi
      rw [staysOpen_concat_length]
      exact ⟨fun hmem => absurd (h.lt_length hmem) (Nat.lt_irrefl _), fun hkind => absurd hkind hopen⟩
    · rw [h.mem_iff_concat hi, htoken, Int.add_zero]
      refine ⟨fun hmem => ⟨hmem, ?_⟩, And.left⟩
      obtain ⟨m, hm⟩ := List.getElem?_of_mem hmem
      rw [h.surplus_drop m i hm]
      omega
  · rw [h.surplus_drop_concat hi, htoken, Int.add_zero]

theorem opening (h : Unclosed tokens stack) (hkind : token.kind = .openParen) :
    Unclosed (tokens ++ [token]) (tokens.length :: stack) := by
  have htoken := surplus_open hkind
  refine ⟨h.covered_concat (by omega), ?_, ?_, fun i => ?_, fun m i hi => ?_⟩
  · rw [surplus_append, h.surplus_eq, htoken, List.length_cons]
    rfl
  · exact List.pairwise_cons.2 ⟨fun i hi => h.lt_length hi, h.decreasing⟩
  · by_cases hi : i = tokens.length
    · subst hi
      rw [staysOpen_concat_length]
      exact ⟨fun _ => hkind, fun _ => List.mem_cons_self⟩
    · rw [h.mem_iff_concat hi, htoken, List.mem_cons, or_iff_right hi]
      refine ⟨fun hmem => ⟨hmem, ?_⟩, And.left⟩
      obtain ⟨m, hm⟩ := List.getElem?_of_mem hmem
      rw [h.surplus_drop m i hm]
      omega
  · cases m with
    | zero =>
      cases hi
      rw [List.drop_of_length_le (by simp)]
      rfl
    | succ m =>
      rw [h.surplus_drop_concat hi, htoken]
      rfl

/-- A closing parenthesis closes the innermost group, and no other one. -/
theorem closing (h : Unclosed tokens (j :: stack)) (hkind : token.kind = .closeParen) :
    Unclosed (tokens ++ [token]) stack := by
  have htoken := surplus_close hkind
  have hlength : surplus tokens = stack.length + 1 := h.surplus_eq
  refine ⟨?_, ?_, (List.pairwise_cons.1 h.decreasing).2, fun i => ?_, fun m i hi => ?_⟩
  · refine h.covered_concat ?_
    rw [htoken, List.length_cons]
    omega
  · rw [surplus_append, hlength, htoken]
    omega
  · by_cases hi : i = tokens.length
    · subst hi
      rw [staysOpen_concat_length]
      refine ⟨fun hmem => ?_, fun hopen => ?_⟩
      · exact absurd (h.lt_length (List.mem_cons_of_mem j hmem)) (Nat.lt_irrefl _)
      · rw [hkind] at hopen
        cases hopen
    · rw [h.mem_iff_concat hi, htoken]
      constructor
      · intro hmem
        refine ⟨List.mem_cons_of_mem j hmem, ?_⟩
        obtain ⟨m, hm⟩ := List.getElem?_of_mem hmem
        have hinside := h.surplus_drop (m + 1) i hm
        omega
      · rintro ⟨hmem, hinside⟩
        rcases List.mem_cons.1 hmem with rfl | hmem
        · have hinnermost := h.surplus_drop 0 i rfl
          omega
        · exact hmem
  · have hinside : surplus ((tokens ++ [token]).drop (i + 1)) = (m + 1 : Nat) + surplus [token] :=
      h.surplus_drop_concat hi
    rw [hinside, htoken]
    omega

/-- With groups open, a closing parenthesis matches the innermost one. -/
theorem matches_head (h : Unclosed tokens (j :: stack)) (hkind : token.kind = .closeParen) (rest : List Token) :
    Matches (tokens ++ token :: rest) j tokens.length := by
  obtain ⟨hopen, hcovered⟩ := (h.mem_iff j).1 List.mem_cons_self
  refine ⟨hopen.lt_length, (opensAt_append hopen.lt_length).2 hopen, ⟨token, ?_, hkind⟩, ?_⟩
  · rw [List.getElem?_append_right (Nat.le_refl _), Nat.sub_self]
    rfl
  · rw [List.take_left]
    exact ⟨hcovered, h.surplus_drop 0 j rfl⟩

/-- With no group open, a closing parenthesis matches none. -/
theorem not_matches (h : Unclosed tokens []) (rest : List Token) :
    ¬Matches (tokens ++ rest) i tokens.length := by
  intro hmatch
  have hbalanced := hmatch.balanced
  rw [List.take_left] at hbalanced
  obtain ⟨token, htoken, hkind⟩ := (opensAt_append hmatch.lt).1 hmatch.opensAt
  have hsplit : tokens = tokens.take i ++ [token] ++ tokens.drop (i + 1) := by
    have htake : tokens.take (i + 1) = tokens.take i ++ [token] := by
      rw [List.take_add_one, htoken]
      rfl
    rw [← htake, List.take_append_drop]
  have hbefore := h.covered i
  have hall := h.surplus_eq
  rw [hsplit, surplus_append, surplus_append, surplus_open hkind, hbalanced.surplus_eq, List.length_nil] at hall
  omega

end Unclosed

theorem exists_unclosed (h : Covered tokens) : ∃ stack, Unclosed tokens stack := by
  induction tokens using List.reverseRecOn with
  | nil => exact ⟨[], .nil⟩
  | append_singleton tokens token ih =>
    obtain ⟨hbefore, hall⟩ := covered_concat.1 h
    obtain ⟨stack, hunclosed⟩ := ih hbefore
    by_cases hopen : token.kind = .openParen
    · exact ⟨_, hunclosed.opening hopen⟩
    by_cases hclose : token.kind = .closeParen
    · cases stack with
      | nil =>
        rw [surplus_append, hunclosed.surplus_eq, surplus_close hclose, List.length_nil] at hall
        omega
      | cons j stack => exact ⟨stack, hunclosed.closing hclose⟩
    · exact ⟨stack, hunclosed.inner hopen hclose⟩

/-- Where no part closes more groups than it opens, every closing parenthesis has a match. -/
theorem Covered.exists_matches (h : Covered tokens) (hj : ClosesAt tokens j) : ∃ i, Matches tokens i j := by
  obtain ⟨token, htoken, hkind⟩ := hj
  obtain ⟨hlt, rfl⟩ := List.getElem?_eq_some_iff.1 htoken
  have hsplit : tokens.take j ++ tokens[j] :: tokens.drop (j + 1) = tokens := by
    rw [List.getElem_cons_drop, List.take_append_drop]
  have hbefore : Covered (tokens.take j ++ [tokens[j]]) := by
    rw [List.take_append_getElem]
    exact h.take _
  obtain ⟨hcovered, hall⟩ := covered_concat.1 hbefore
  obtain ⟨stack, hunclosed⟩ := exists_unclosed hcovered
  cases stack with
  | nil =>
    rw [surplus_append, hunclosed.surplus_eq, surplus_close hkind, List.length_nil] at hall
    omega
  | cons i stack =>
    have hmatch := hunclosed.matches_head hkind (tokens.drop (j + 1))
    rw [hsplit, List.length_take_of_le (Nat.le_of_lt hlt)] at hmatch
    exact ⟨i, hmatch⟩

end Token

end SymbolicCalc
