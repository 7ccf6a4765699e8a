import SymbolicCalc.Batch
import SymbolicCalc.Proofs.Sessions

/-!
# Only successful assignments matter to a batch

The transcript of a batch has an entry for every line of its input: the line, what it gives, and what it binds. The
bindings after the batch are those of the entries, in order, and only an assignment that succeeds binds something.
So blank lines, lines that fail and lines that are no assignments can be deleted from the input in any number: the
entries of the other lines stay as they are.
-/

namespace SymbolicCalc

/-! ## The lines of a text -/

/-- The lines of a text, blank ones included. -/
def textLines (input : String) : List String :=
  (splitLines input.toList).map String.ofList

/-- The text of some lines, each of which a line feed ends. -/
def joinLines (lines : List String) : String :=
  String.ofList (lines.flatMap fun line => line.toList ++ ['\n'])

theorem lineFeed_not_mem_of_splitLines {cs line : List Char} (h : line ∈ splitLines cs) : '\n' ∉ line := by
  fun_induction splitLines cs generalizing line with
  | case1 => cases h
  | case2 cs ih =>
    rcases List.mem_cons.1 h with rfl | h
    · exact List.not_mem_nil
    · exact ih h
  | case3 c cs hc hrest ih =>
    obtain rfl := List.mem_singleton.1 h
    rw [List.mem_singleton]
    exact fun heq => hc heq.symm
  | case4 c cs hc first rest hrest ih =>
    rw [hrest] at ih
    rcases List.mem_cons.1 h with rfl | h
    · rw [List.mem_cons, not_or]
      exact ⟨fun heq => hc heq.symm, ih List.mem_cons_self⟩
    · exact ih (List.mem_cons_of_mem first h)

theorem splitLines_append {line rest : List Char} (h : '\n' ∉ line) :
    splitLines (line ++ '\n' :: rest) = line :: splitLines rest := by
  induction line with
  | nil => rw [List.nil_append, splitLines, if_pos rfl]
  | cons c line ih =>
    rw [List.mem_cons, not_or] at h
    have hc : ¬c = '\n' := fun heq => h.1 heq.symm
    rw [List.cons_append, splitLines, if_neg hc, ih h.2]

/-- Lines without line feeds can be joined to a text and are the lines of the text. -/
theorem textLines_joinLines {lines : List String} (h : ∀ line ∈ lines, '\n' ∉ line.toList) :
    textLines (joinLines lines) = lines := by
  unfold textLines joinLines
  rw [String.toList_ofList]
  induction lines with
  | nil => rfl
  | cons line lines ih =>
    obtain ⟨hline, hlines⟩ := List.forall_mem_cons.1 h
    rw [List.flatMap_cons, List.append_assoc, List.singleton_append, splitLines_append hline, List.map_cons,
      String.ofList_toList, ih hlines]

theorem lineFeed_not_mem_of_textLines {input line : String} (h : line ∈ textLines input) : '\n' ∉ line.toList := by
  obtain ⟨cs, hcs, rfl⟩ := List.mem_map.1 h
  rw [String.toList_ofList]
  exact lineFeed_not_mem_of_splitLines hcs

/-! ## Transcripts -/

/-- What a batch does with a line of its input. -/
structure BatchEntry where
  line : String
  /-- What the line gives. A blank line is skipped and gives nothing. -/
  result : Option (Except LineError String)
  /-- The name, in lower case, and the value that the line binds. -/
  bound : Option (String × Binary64)
deriving DecidableEq

namespace BatchEntry

/-- What the line prints on the standard output. -/
def output (entry : BatchEntry) : Option String :=
  entry.result.bind Except.toOption

/-- The line is an assignment that succeeds. -/
def Assigns (entry : BatchEntry) : Prop :=
  (∃ name source, Statement.parse entry.line = .ok (.assign name source)) ∧
    ∃ output, entry.result = some (.ok output)

/-- The line is blank, or it fails, or it is no assignment. -/
inductive Inessential (entry : BatchEntry) : Prop
  | blank (h : entry.result = none)
  | failed {e : LineError} (h : entry.result = some (.error e))
  | noAssignment (h : ∀ name source, Statement.parse entry.line ≠ .ok (.assign name source))

theorem Inessential.not_assigns {entry : BatchEntry} (h : entry.Inessential) : ¬entry.Assigns := by
  rintro ⟨⟨name, source, hparse⟩, output, hresult⟩
  cases h with
  | blank h =>
    rw [hresult] at h
    cases h
  | failed h =>
    rw [hresult] at h
    cases h
  | noAssignment h => exact h name source hparse

end BatchEntry

namespace Calculator

variable {state : Calculator} {line : String} {lines : List String}

/-- The name, in lower case, and the value that a line binds if it is an assignment whose expression has a value. -/
def assigned? (state : Calculator) (line : String) : Option (String × Binary64) :=
  match Statement.parse line with
  | .ok (.assign name source) =>
    (state.evaluate source).toOption.map fun value => (Text.lowercase name, value)
  | _ => none

/-- What a batch does with one line. -/
def entry (state : Calculator) (line : String) : BatchEntry :=
  if Text.allBlank line.toList then ⟨line, none, none⟩ else ⟨line, some (state.run line).2, state.assigned? line⟩

/-- The state after what a line binds. -/
def bind (state : Calculator) : Option (String × Binary64) → Calculator
  | none => state
  | some (name, value) => ⟨state.values.add name value⟩

/-- What a batch does with each of some lines. -/
def transcript (state : Calculator) : List String → List BatchEntry
  | [] => []
  | line :: lines => state.entry line :: (state.bind (state.entry line).bound).transcript lines

/-- The state after some bindings are added, in order. -/
def bindAll (state : Calculator) (bindings : List (String × Binary64)) : Calculator :=
  ⟨bindings.foldl (fun ρ binding => ρ.add binding.1 binding.2) state.values⟩

/-! ## What one line does -/

theorem entry_of_allBlank (h : Text.allBlank line.toList = true) : state.entry line = ⟨line, none, none⟩ :=
  if_pos h

theorem entry_of_not_allBlank (h : ¬Text.allBlank line.toList = true) :
    state.entry line = ⟨line, some (state.run line).2, state.assigned? line⟩ :=
  if_neg h

theorem line_entry (state : Calculator) (line : String) : (state.entry line).line = line := by
  unfold entry
  split
  · rfl
  · rfl

/-- A line changes the state by what it binds. -/
theorem run_fst (state : Calculator) (line : String) : (state.run line).1 = state.bind (state.assigned? line) := by
  unfold assigned?
  split
  next name source hparse =>
    cases heval : state.evaluate source with
    | ok value =>
      rw [run_of_evaluate hparse heval]
      exact congrArg Calculator.mk (Valuation.add_lowercase _ _ _).symm
    | error e =>
      have hstep : state.step line = .error e :=
        bind_eq_error.2 (.inr ⟨_, mapError_eq_ok.2 hparse, bind_eq_error.2 (.inl heval)⟩)
      rw [run, hstep]
      rfl
  next hno =>
    rcases state.run_cases line with h | ⟨name, source, value, hparse, -⟩
    · exact h
    · exact absurd hparse (hno name source)

/-- A line that binds something is an assignment that succeeds. It binds its name in lower case and its value, and
prints both. -/
theorem exists_of_bound_entry {name : String} {value : Binary64}
    (h : (state.entry line).bound = some (name, value)) :
    ∃ spelling source, Statement.parse (state.entry line).line = .ok (.assign spelling source) ∧
      name = Text.lowercase spelling ∧
      (state.entry line).result = some (.ok (name ++ " = " ++ Number.text value)) := by
  by_cases hblank : Text.allBlank line.toList = true
  · rw [entry_of_allBlank hblank] at h
    cases h
  · rw [entry_of_not_allBlank hblank] at h ⊢
    simp only [assigned?] at h
    split at h
    next spelling source hparse =>
      cases heval : state.evaluate source with
      | ok x =>
        rw [heval] at h
        cases h
        exact ⟨spelling, source, hparse, rfl, by rw [run_of_evaluate hparse heval]⟩
      | error e =>
        rw [heval] at h
        cases h
    · cases h

/-- An assignment binds something exactly if it succeeds, and no other line does. -/
theorem isSome_bound_entry (state : Calculator) (line : String) :
    (state.entry line).bound.isSome = true ↔ (state.entry line).Assigns := by
  constructor
  · intro h
    obtain ⟨⟨name, value⟩, hbound⟩ := Option.isSome_iff_exists.1 h
    obtain ⟨spelling, source, hparse, -, hresult⟩ := exists_of_bound_entry hbound
    exact ⟨⟨spelling, source, hparse⟩, _, hresult⟩
  · rintro ⟨⟨name, source, hparse⟩, output, houtput⟩
    by_cases hblank : Text.allBlank line.toList = true
    · rw [entry_of_allBlank hblank] at houtput
      cases houtput
    · rw [entry_of_not_allBlank hblank] at hparse houtput ⊢
      obtain ⟨value, heval, -⟩ := exists_of_run_assign hparse (Option.some.inj houtput)
      simp only [assigned?, hparse, heval]
      rfl

/-- A line that is blank, fails or is no assignment binds nothing. -/
theorem bound_of_inessential (h : (state.entry line).Inessential) : (state.entry line).bound = none := by
  cases hbound : (state.entry line).bound with
  | none => rfl
  | some binding =>
    have hassigns := (state.isSome_bound_entry line).1 (by rw [hbound]; rfl)
    exact absurd hassigns h.not_assigns

/-! ## What a batch does -/

theorem runAll_cons (state : Calculator) (line : String) (lines : List String) :
    state.runAll (line :: lines) =
      (((state.run line).1.runAll lines).1, (state.run line).2 :: ((state.run line).1.runAll lines).2) := rfl

theorem runAll_filter (state : Calculator) (lines : List String) :
    state.runAll (lines.filter fun line => !Text.allBlank line.toList) =
      (state.bindAll ((state.transcript lines).filterMap BatchEntry.bound),
        (state.transcript lines).filterMap BatchEntry.result) := by
  induction lines generalizing state with
  | nil => rfl
  | cons line lines ih =>
    by_cases hblank : Text.allBlank line.toList = true
    · rw [List.filter_cons_of_neg (by simp [hblank]), ih, transcript, entry_of_allBlank hblank]
      rfl
    · rw [List.filter_cons_of_pos (by simp [hblank]), runAll_cons, ih, transcript, entry_of_not_allBlank hblank,
        run_fst]
      simp only [List.filterMap_cons]
      cases state.assigned? line with
      | none => rfl
      | some binding => rfl

/-- A batch is determined by its transcript. -/
theorem runBatch_eq (state : Calculator) (input : String) :
    state.runBatch input =
      (state.bindAll ((state.transcript (textLines input)).filterMap BatchEntry.bound),
        (state.transcript (textLines input)).filterMap BatchEntry.result) := by
  have hlines : inputLines input = (textLines input).filter fun line => !Text.allBlank line.toList := by
    unfold inputLines textLines
    rw [List.filter_map]
    congr 2
    funext line
    rw [Function.comp_apply, String.toList_ofList]
  rw [runBatch, hlines, runAll_filter]

end Calculator

/-! ## Deleting lines -/

/-- The list `kept` is the list with some members deleted, all of which satisfy `p`. -/
inductive Deletes {α : Type} (p : α → Prop) : List α → List α → Prop
  | nil : Deletes p [] []
  | keep (a : α) {as kept : List α} (h : Deletes p as kept) : Deletes p (a :: as) (a :: kept)
  | delete {a : α} {as kept : List α} (ha : p a) (h : Deletes p as kept) : Deletes p (a :: as) kept

theorem Deletes.sublist {α : Type} {p : α → Prop} {as kept : List α} (h : Deletes p as kept) : kept.Sublist as := by
  induction h with
  | nil => exact .slnil
  | keep a _ ih => exact ih.cons_cons a
  | delete _ _ ih => exact ih.cons _

namespace Calculator

variable {state : Calculator} {lines : List String} {kept : List BatchEntry}

theorem exists_of_mem_transcript {entry : BatchEntry} (h : entry ∈ state.transcript lines) :
    ∃ before line, line ∈ lines ∧ entry = Calculator.entry before line := by
  induction lines generalizing state with
  | nil => cases h
  | cons line lines ih =>
    rcases List.mem_cons.1 h with rfl | h
    · exact ⟨state, line, List.mem_cons_self, rfl⟩
    · obtain ⟨before, other, hother, rfl⟩ := ih h
      exact ⟨before, other, List.mem_cons_of_mem line hother, rfl⟩

/-- The lines that are kept have the entries that they had, and the same is bound. The induction is on the lines: a
line that is deleted leaves the state to the next one as it was. -/
theorem transcript_of_deletes (h : Deletes BatchEntry.Inessential (state.transcript lines) kept) :
    state.transcript (kept.map BatchEntry.line) = kept ∧
      kept.filterMap BatchEntry.bound = (state.transcript lines).filterMap BatchEntry.bound := by
  induction lines generalizing state kept with
  | nil =>
    cases h
    exact ⟨rfl, rfl⟩
  | cons line lines ih =>
    cases h with
    | @keep _ _ kept h =>
      obtain ⟨htranscript, hbound⟩ := ih h
      constructor
      · rw [List.map_cons, line_entry, transcript, htranscript]
      · rw [transcript, List.filterMap_cons, List.filterMap_cons, hbound]
    | delete hline h =>
      have hnone := bound_of_inessential hline
      rw [hnone] at h
      obtain ⟨htranscript, hbound⟩ := ih h
      refine ⟨htranscript, ?_⟩
      rw [transcript, List.filterMap_cons_none hnone, hnone]
      exact hbound

/-- The lines that are kept are the lines of some text. -/
theorem exists_textLines_of_deletes {input : String}
    (h : Deletes BatchEntry.Inessential (state.transcript (textLines input)) kept) :
    ∃ input', textLines input' = kept.map BatchEntry.line := by
  refine ⟨joinLines (kept.map BatchEntry.line), textLines_joinLines fun line hline => ?_⟩
  obtain ⟨entry, hentry, rfl⟩ := List.mem_map.1 hline
  obtain ⟨before, line, hmem, rfl⟩ := exists_of_mem_transcript (h.sublist.subset hentry)
  rw [line_entry]
  exact lineFeed_not_mem_of_textLines hmem

end Calculator

theorem BatchResults.exitCode_ne_zero_iff (results : BatchResults) :
    results.exitCode ≠ 0 ↔ ∃ e, .error e ∈ results := by
  have hfails : results.succeeded = false ↔ ∃ e, .error e ∈ results := by
    rw [succeeded, List.all_eq_false]
    constructor
    · rintro ⟨result, hmem, hresult⟩
      cases result with
      | ok output => exact absurd rfl hresult
      | error e => exact ⟨e, hmem⟩
    · rintro ⟨e, hmem⟩
      exact ⟨.error e, hmem, nofun⟩
  rw [← hfails, exitCode]
  cases results.succeeded with
  | true => simp
  | false => simp

/-- The bindings after a batch are those of the assignments that succeed, added in order. Blank lines, lines that
fail and lines that are no assignments may be deleted: what is left is a text again, for which every line gives what
it gave, the results are printed in the same order, and the batch fails exactly if one of the lines left fails. -/
theorem Calculator.runBatch_deletes (state : Calculator) (input : String) :
    state.runBatch input =
        (state.bindAll ((state.transcript (textLines input)).filterMap BatchEntry.bound),
          (state.transcript (textLines input)).filterMap BatchEntry.result) ∧
      (∀ entry ∈ state.transcript (textLines input),
        (entry.bound.isSome = true ↔ entry.Assigns) ∧
        ∀ name value, entry.bound = some (name, value) →
          ∃ spelling source, Statement.parse entry.line = .ok (.assign spelling source) ∧
            name = Text.lowercase spelling ∧ entry.result = some (.ok (name ++ " = " ++ Number.text value))) ∧
      ∀ kept, Deletes BatchEntry.Inessential (state.transcript (textLines input)) kept →
        (∃ input', textLines input' = kept.map BatchEntry.line) ∧
        ∀ input', textLines input' = kept.map BatchEntry.line →
          state.transcript (textLines input') = kept ∧
          (state.runBatch input').1 = (state.runBatch input).1 ∧
          BatchResults.printed (state.runBatch input').2 = kept.filterMap BatchEntry.output ∧
          (BatchResults.exitCode (state.runBatch input').2 ≠ 0 ↔
            ∃ entry ∈ kept, ∃ e, entry.result = some (.error e)) := by
  refine ⟨state.runBatch_eq input, fun entry hentry => ?_, fun kept hkept => ⟨?_, fun input' hinput' => ?_⟩⟩
  · obtain ⟨before, line, -, rfl⟩ := exists_of_mem_transcript hentry
    exact ⟨before.isSome_bound_entry line, fun name value => exists_of_bound_entry⟩
  · exact exists_textLines_of_deletes hkept
  · obtain ⟨htranscript, hbound⟩ := transcript_of_deletes hkept
    rw [runBatch_eq, runBatch_eq, hinput', htranscript, hbound]
    refine ⟨rfl, rfl, List.filterMap_filterMap, ?_⟩
    rw [BatchResults.exitCode_ne_zero_iff]
    simp only [List.mem_filterMap]
    constructor
    · rintro ⟨e, entry, hentry, hresult⟩
      exact ⟨entry, hentry, e, hresult⟩
    · rintro ⟨entry, hentry, e, hresult⟩
      exact ⟨e, entry, hentry, hresult⟩

/-- A blank line, a line that fails and a line that is no assignment are deleted between two assignments. -/
theorem Calculator.runBatch_deletes_between :
    ∃ (state : Calculator) (kept : List BatchEntry),
      Deletes BatchEntry.Inessential
        (state.transcript (textLines "a = x + 1\n \nb = ln(a - 2)\nA * 2\nc = A / 0")) kept ∧
      textLines "a = x + 1\nc = A / 0\n" = kept.map BatchEntry.line ∧
      state.transcript (textLines "a = x + 1\nc = A / 0\n") = kept ∧
      BatchResults.printed (state.runBatch "a = x + 1\nc = A / 0\n").2 = ["a = 2", "c = inf"] ∧
      (state.runBatch "a = x + 1\nc = A / 0\n").1 =
        (state.runBatch "a = x + 1\n \nb = ln(a - 2)\nA * 2\nc = A / 0").1 := by
  have htranscript : Calculator.transcript ⟨.ofList [("x", Binary64.one)]⟩
      (textLines "a = x + 1\n \nb = ln(a - 2)\nA * 2\nc = A / 0") =
      [⟨"a = x + 1", some (.ok "a = 2"), some ("a", Binary64.ofDecimal false ⟨2, 0⟩)⟩,
        ⟨" ", none, none⟩,
        ⟨"b = ln(a - 2)", some (.error (.expression "ln(a - 2)" (.evaluation (.outside .ln Binary64.zero)))), none⟩,
        ⟨"A * 2", some (.ok "4"), none⟩,
        ⟨"c = A / 0", some (.ok "c = inf"), some ("c", Binary64.infinity false)⟩] := by
    decide +kernel
  have hparse : Statement.parse "A * 2" = .ok (.evaluate "A * 2") := by decide +kernel
  have hexpression : ∀ name source, Statement.parse "A * 2" ≠ .ok (.assign name source) := by
    intro name source h
    rw [hparse] at h
    cases h
  have hdeletes : Deletes BatchEntry.Inessential
      (Calculator.transcript ⟨.ofList [("x", Binary64.one)]⟩
        (textLines "a = x + 1\n \nb = ln(a - 2)\nA * 2\nc = A / 0"))
      [⟨"a = x + 1", some (.ok "a = 2"), some ("a", Binary64.ofDecimal false ⟨2, 0⟩)⟩,
        ⟨"c = A / 0", some (.ok "c = inf"), some ("c", Binary64.infinity false)⟩] := by
    rw [htranscript]
    refine .keep _ (.delete (.blank rfl) (.delete (.failed rfl) (.delete ?_ (.keep _ .nil))))
    exact .noAssignment hexpression
  have hlines : textLines "a = x + 1\nc = A / 0\n" = ["a = x + 1", "c = A / 0"] := by decide +kernel
  obtain ⟨-, hresults⟩ := (runBatch_deletes _ _).2.2 _ hdeletes
  obtain ⟨hsame, hstate, hprinted, -⟩ := hresults "a = x + 1\nc = A / 0\n" hlines
  exact ⟨_, _, hdeletes, hlines, hsame, hprinted, hstate⟩

end SymbolicCalc
