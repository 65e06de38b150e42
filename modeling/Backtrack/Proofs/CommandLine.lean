import Backtrack.CommandLine
import Backtrack.Proofs.Lines
import Backtrack.Proofs.Messages
import Backtrack.Proofs.PrintedJson
import Backtrack.Proofs.ReadyMade

/-!
What the command line prints. Without the flag for all alternatives it answers the lines of its
text one by one: each line that is not blank has an answer of its own, which depends on nothing
but the line, and a text that follows another one is answered as if it stood alone, but for the
numbers of its lines. With the flag it shows the alternatives of the first such line, and the
answer to that line can be read off from them.
-/

namespace Backtrack

namespace Alternatives

variable {α : Type}

/-- A run on alternatives that are not cut off has a result. -/
theorem exists_result_select {s : Alternatives α} (h : s.ends) (input : Text) (o : Options)
    (examined : ℕ) (furthest : Option Text) (earlier : List Call) :
    ∃ res, (select input o examined furthest earlier s).result = some res := by
  induction s generalizing examined furthest earlier with
  | exhausted c => exact ⟨_, rfl⟩
  | cutOff c => cases h
  | next c a tail ih =>
      unfold select
      split
      · exact ⟨_, rfl⟩
      · split
        · exact ⟨_, rfl⟩
        · exact ih () h _ _ _

end Alternatives

namespace Location

open Text

@[simp] theorem locate_zero (t : Text) : locate t 0 = ⟨0, 1, 1⟩ := by
  have htake : takeBytes 0 t = [] := takeBytes_append [] t
  rw [locate, htake]
  rfl

theorem ofRest_append {taken : Text} (h : '\n' ∉ taken) (rest : Text) :
    ofRest (taken ++ rest) rest = ⟨byteLength taken, 1, taken.length + 1⟩ := by
  have hlast : lastLine taken = taken := by
    rw [lastLine, List.takeWhile_eq_self_iff.mpr ?_, List.reverse_reverse]
    intro c hc
    exact bne_iff_ne.mpr fun heq => h (heq ▸ List.mem_reverse.mp hc)
  rw [ofRest, byteLength_append, Nat.add_sub_cancel_right, locate, takeBytes_append, hlast,
    List.count_eq_zero.mpr h]

end Location

namespace Parser

open Alternatives Text

variable {α : Type} {p : Parser α} {line : Text}

theorem exists_result_run (h : ((p line).alternatives ()).ends) (o : Options) :
    ∃ res, (p.run o line).result = some res :=
  exists_result_select h line o 0 none _

/-- The result for a line that its alternatives tell: the value of the first that leaves nothing
over; or else an error, at the start of the line if there are no alternatives, and if there are
some where the shortest rest begins. -/
inductive ReadOff (line : Text) (as : List (Alternative α)) : Except ParseError α → Prop
  | complete {a : Alternative α} (h : as.find? (·.rest.isEmpty) = some a) :
      ReadOff line as (.ok a.value)
  | none (h : as = []) : ReadOff line as (.error (.noParse ⟨0, 1, 1⟩))
  | incomplete {a : Alternative α} {taken : Text} (hrests : ∀ b ∈ as, b.rest ≠ []) (ha : a ∈ as)
      (hleast : ∀ b ∈ as, a.rest.byteLength ≤ b.rest.byteLength) (htaken : taken ++ a.rest = line) :
      ReadOff line as (.error (.incomplete ⟨byteLength taken, 1, taken.length + 1⟩ a.rest))

/-- If no alternative takes all of the line, the error at their end is what they tell. -/
theorem readOff_endError {as : List (Alternative α)} (hrests : ∀ b ∈ as, b.rest ≠ [])
    (hsuffix : ∀ b ∈ as, b.rest <:+ line) (hline : '\n' ∉ line) :
    ReadOff line as (.error (endError line (furthestOf none as))) := by
  rcases eq_or_ne as [] with rfl | hne
  · change ReadOff line [] (.error (ParseError.noParse (.locate line 0)))
    rw [Location.locate_zero]
    exact .none rfl
  · obtain ⟨a, ha, hfurthest, hleast⟩ := exists_furthestOf_eq hne
    obtain ⟨taken, rfl⟩ := hsuffix a ha
    have htaken : '\n' ∉ taken := fun hmem => hline (List.mem_append_left a.rest hmem)
    rw [hfurthest, endError, Location.ofRest_append htaken]
    exact .incomplete hrests ha hleast rfl

/-- A run for the whole line answers what the alternatives tell. -/
theorem exists_readOff (hends : ((p line).alternatives ()).ends)
    (hsuffix : ∀ a ∈ ((p line).alternatives ()).toList, a.rest <:+ line) (hline : '\n' ∉ line) :
    ∃ res, (p.runComplete line).result = some res ∧
      ReadOff line ((p line).alternatives ()).toList res := by
  have hallows (n : ℕ) : ({} : Options).Allows n := Options.allows_of_none rfl
  rcases hfind : ((p line).alternatives ()).toList.find? (·.rest.isEmpty) with _ | a
  · have hrests : ∀ b ∈ ((p line).alternatives ()).toList, b.rest ≠ [] := by simpa using hfind
    have hnone : ∀ b ∈ ((p line).alternatives ()).toList, ¬({} : Options).accepts b := by
      simpa [Options.accepts] using hrests
    rw [runComplete, run_of_ends p {} line hends hnone (hallows _)]
    exact ⟨_, rfl, readOff_endError hrests hsuffix hline⟩
  · obtain ⟨hempty, before, later, has, hbefore⟩ := List.find?_eq_some_iff_append.mp hfind
    have hget : ((p line).alternatives ()).toList[before.length]? = some a := by simp [has]
    have haccepts : ({} : Options).accepts a := by simpa [Options.accepts] using hempty
    have hnone : ∀ b ∈ ((p line).alternatives ()).toList.take before.length,
        ¬({} : Options).accepts b := by
      simpa [has, Options.accepts] using hbefore
    rw [runComplete, run_of_accepts p {} line hget haccepts hnone (hallows _)]
    exact ⟨_, rfl, .complete hfind⟩

theorem exists_result_runFirst (hends : ((p line).alternatives ()).ends) :
    ∃ res, (p.runFirst line).result = some res ∧
      (∀ a ∈ ((p line).alternatives ()).toList.head?, res = .ok a.value) ∧
      (res = .error (.noParse ⟨0, 1, 1⟩) ↔ ((p line).alternatives ()).toList = []) := by
  have hallows (n : ℕ) : Options.partially.Allows n := Options.allows_of_none rfl
  rcases has : ((p line).alternatives ()).toList with _ | ⟨a, as⟩
  · have hnone : ∀ b ∈ ((p line).alternatives ()).toList, ¬Options.partially.accepts b := by
      simp [has]
    rw [runFirst, run_of_ends p .partially line hends hnone (hallows _), has]
    refine ⟨_, rfl, by simp, ?_⟩
    change Except.error (ParseError.noParse (.locate line 0)) = _ ↔ _
    simp
  · have hget : ((p line).alternatives ()).toList[0]? = some a := by simp [has]
    rw [runFirst, run_of_accepts p .partially line hget rfl (by simp) (hallows _)]
    exact ⟨_, rfl, by simp, by simp⟩

end Parser

namespace CommandLine

open Text

/-! ### Requests -/

structure World where
  file : Text → Option (List UInt8)
  stdin : List UInt8

namespace Request

variable {r : Request} {w : World} {o : Options} {t : Text}

/-- In the world `w` the request reads the options `o`, from its options file if it names one, and
works on the text `t`. -/
structure Finds (r : Request) (w : World) (o : Options) (t : Text) : Prop where
  options : match r.config with
    | none => o = {}
    | some path => ∃ bytes, w.file path = some bytes ∧ Options.ofBytes bytes = .ok o
  text : ∃ bytes, r.input.elim (some w.stdin) w.file = some bytes ∧ Utf8.text? bytes = some t

def outcome (r : Request) (w : World) : Outcome := r.run w.file w.stdin

/-- The options in force when the request has read `o`. -/
def inForce (r : Request) (o : Options) : Options :=
  { o with requireComplete := o.requireComplete && !r.partially }

theorem Finds.options_eq (h : r.Finds w o t) : r.options w.file = .ok (r.inForce o) := by
  have hoptions := h.options
  have hforced : (if r.partially then { o with requireComplete := false } else o) =
      r.inForce o := by
    unfold inForce
    cases r.partially <;> simp
  unfold Request.options
  rw [← hforced]
  cases hconfig : r.config with
  | none =>
      rw [hconfig] at hoptions
      rw [hoptions]
      rfl
  | some path =>
      rw [hconfig] at hoptions
      obtain ⟨bytes, hfile, ho⟩ := hoptions
      simp only [hfile, ho]
      rfl

theorem Finds.text_eq (h : r.Finds w o t) : r.text w.file w.stdin = .ok t := by
  obtain ⟨bytes, hbytes, htext⟩ := h.text
  unfold Request.text
  cases hinput : r.input <;> simp_all

theorem Finds.outcome_eq (h : r.Finds w o t) :
    r.outcome w =
      if r.all then enumerateFirst r.kind t else answerLines r.kind (r.inForce o) t := by
  unfold outcome run
  rw [h.options_eq, h.text_eq]
  rfl

end Request

/-! ### Answers -/

abbrev Answer := ℕ × Except ParseError Json

/-- The printed object of an answer: the number of the line with the value, or with the error in
words. -/
def object : Answer → Json
  | (n, .ok v) => .object [("line".toList, .integer n), ("value".toList, v)]
  | (n, .error e) => .object [("error".toList, .string e.message), ("line".toList, .integer n)]

/-- The answers to lines of which the first has the number `n`: one for each line that is not
blank, with its number and the result of a run on the line alone. -/
inductive Answers (k : Kind) (o : Options) : ℕ → List Text → List Answer → Prop
  | done (n : ℕ) : Answers k o n [] []
  | blank {n : ℕ} {l : Text} {ls : List Text} {as : List Answer} (hl : ∀ c ∈ l, isBlank c)
      (h : Answers k o (n + 1) ls as) : Answers k o n (l :: ls) as
  | answer {n : ℕ} {l : Text} {ls : List Text} {as : List Answer} {res : Except ParseError Json}
      (hl : ¬∀ c ∈ l, isBlank c) (hres : (k.parser.run o l).result = some res)
      (h : Answers k o (n + 1) ls as) : Answers k o n (l :: ls) ((n, res) :: as)

def printAnswers (as : List Answer) : Text := as.flatMap fun a => (object a).toText ++ ['\n']

def alternativeObject (n : ℕ) (a : Alternative Json) : Json :=
  .object [("line".toList, .integer n), ("rest".toList, .string a.rest), ("value".toList, a.value)]

/-- A line that shows an answer: it is the JSON text of an object with the number and the value, or
with what the error says and the number. -/
inductive Shows : Text → Answer → Prop
  | value {s : Text} {n : ℕ} {v : Json}
      (h : Json.Writes s (.object [("line".toList, .integer n), ("value".toList, v)])) :
      Shows s (n, .ok v)
  | error {s message : Text} {n : ℕ} {e : ParseError} (he : e.Says message)
      (h : Json.Writes s
        (.object [("error".toList, .string message), ("line".toList, .integer n)])) :
      Shows s (n, .error e)

theorem shows_toText : ∀ a : Answer, Shows (object a).toText a
  | (_, .ok _) => .value (Json.writes_toText _)
  | (_, .error e) => .error e.says_message (Json.writes_toText _)

theorem toText_answer (a : Answer) :
    (⟨a.1, some a.2⟩ : LineAnswer).toText = (object a).toText ++ ['\n'] := by
  obtain ⟨n, e | v⟩ := a
  · rfl
  · rfl

/-- Lines always have answers, as no run on a line is cut off. -/
theorem exists_answers (k : Kind) (o : Options) (n : ℕ) (ls : List Text) :
    ∃ as, Answers k o n ls as := by
  induction ls generalizing n with
  | nil => exact ⟨[], .done n⟩
  | cons l ls ih =>
      obtain ⟨as, has⟩ := ih (n + 1)
      by_cases hl : ∀ c ∈ l, isBlank c
      · exact ⟨as, .blank hl has⟩
      · obtain ⟨res, hres⟩ := Parser.exists_result_run (k.greedy l).ends o
        exact ⟨(n, res) :: as, .answer hl hres has⟩

namespace Answers

variable {k : Kind} {o : Options} {n : ℕ} {ls ls' : List Text} {as as' : List Answer}

theorem append (h : Answers k o n ls as) (h' : Answers k o (n + ls.length) ls' as') :
    Answers k o n (ls ++ ls') (as ++ as') := by
  induction h with
  | done n => exact h'
  | blank hl _ ih =>
      refine .blank hl (ih ?_)
      rwa [List.length_cons, Nat.add_comm _ 1, ← Nat.add_assoc] at h'
  | answer hl hres _ ih =>
      refine .answer hl hres (ih ?_)
      rwa [List.length_cons, Nat.add_comm _ 1, ← Nat.add_assoc] at h'

/-- Only the numbers of the answers depend on where the lines stand. -/
theorem raise (h : Answers k o n ls as) (m : ℕ) :
    Answers k o (n + m) ls (as.map fun a => (a.1 + m, a.2)) := by
  induction h with
  | done n => exact .done (n + m)
  | blank hl _ ih =>
      refine .blank hl ?_
      rwa [Nat.add_right_comm] at ih
  | answer hl hres _ ih =>
      refine .answer hl hres ?_
      rwa [Nat.add_right_comm] at ih

theorem blanks (h : ∀ l ∈ ls, ∀ c ∈ l, isBlank c) :
    Answers k o n ls [] := by
  induction ls generalizing n with
  | nil => exact .done n
  | cons l ls ih =>
      rw [List.forall_mem_cons] at h
      exact .blank h.1 (ih h.2)

theorem answers_eq (h : Answers k o n ls as) :
    (((ls.zipIdx n).filterMap fun (line, n) =>
      if line.all isBlank then none else some (n, line)).map
        fun (n, line) => (⟨n, (k.parser.run o line).result⟩ : LineAnswer)) =
      as.map fun a => ⟨a.1, some a.2⟩ := by
  induction h with
  | done n => rfl
  | blank hl _ ih =>
      rw [List.zipIdx_cons, List.filterMap_cons]
      simp only [List.all_eq_true.mpr hl]
      exact ih
  | answer hl hres _ ih =>
      have hblank := Bool.eq_false_iff.mpr (mt List.all_eq_true.mp hl)
      rw [List.zipIdx_cons, List.filterMap_cons]
      simp only [hblank, Bool.false_eq_true, if_false, List.map_cons, hres]
      exact congrArg _ ih

theorem answerLines_eq {t : Text} (h : Answers k o 1 t.lines as) :
    answerLines k o t =
      ⟨if as.all fun a => a.2.isOk then 0 else 1, printAnswers as, none⟩ := by
  have hanswers : answers k o t = as.map fun a => ⟨a.1, some a.2⟩ := h.answers_eq
  have haccepted : ∀ a : Answer, (⟨a.1, some a.2⟩ : LineAnswer).isAccepted = a.2.isOk := by
    rintro ⟨n, e | v⟩ <;> rfl
  simp only [answerLines, hanswers, List.all_map, List.flatMap_map, printAnswers, toText_answer,
    Function.comp_def, haccepted]

/-- The outcome of a request, from the answers to the lines of its text. -/
theorem outcome_eq {r : Request} {w : World} {t : Text} (hall : r.all = false)
    (hfinds : r.Finds w o t) (h : Answers r.kind (r.inForce o) 1 t.lines as) :
    r.outcome w = ⟨if as.all fun a => a.2.isOk then 0 else 1, printAnswers as, none⟩ := by
  rw [hfinds.outcome_eq, hall, ← h.answerLines_eq]
  rfl

end Answers

/-- Objects that are printed one by one are the lines of what is printed. -/
theorem lines_flatMap_toText {α : Type} {json : α → Json}
    (hjson : ∀ a, ∃ fields, json a = .object fields) (as : List α) :
    lines (as.flatMap fun a => (json a).toText ++ ['\n']) = as.map fun a => (json a).toText := by
  have hls : ∀ l ∈ as.map fun a => (json a).toText, '\n' ∉ l ∧ l.getLast? ≠ some '\r' := by
    intro l hl
    obtain ⟨a, -, rfl⟩ := List.mem_map.mp hl
    obtain ⟨fields, hfields⟩ := hjson a
    refine ⟨Json.newline_not_mem_toText _, ?_⟩
    simp [hfields, Json.getLast?_toText_object]
  have hlines := lines_flatMap hls
  rwa [List.flatMap_map] at hlines

theorem lines_printAnswers (as : List Answer) :
    (printAnswers as).lines = as.map fun a => (object a).toText :=
  lines_flatMap_toText (by rintro ⟨n, e | v⟩ <;> exact ⟨_, rfl⟩) as

theorem shows_lines_printAnswers (as : List Answer) :
    List.Forall₂ Shows (printAnswers as).lines as := by
  rw [lines_printAnswers, List.forall₂_map_left_iff, List.forall₂_same]
  exact fun a _ => shows_toText a

/-- **Line by line.** A request that does not ask for all alternatives answers every line that is
not blank, in order: one printed line for each, which is a JSON object with the number of the line
in the text and with the value or the error in words of a run on the line alone, under the options
of the options file, from which the flag for partial parses takes only that the parse has to be
complete. The status is zero if and only if all lines are accepted. On a text that ends where a line
ends and another one behind it, the output is that of the first followed by that of the second,
where the numbers are raised by the number of lines of the first, and the status is zero if and only
if it is for both. -/
theorem answers_line_by_line (r : Request) (hall : r.all = false) (o : Options) :
    (∀ w t, r.Finds w o t → ∃ as, Answers r.kind (r.inForce o) 1 t.lines as ∧
      (r.outcome w).output = printAnswers as ∧
      (r.outcome w).output.lines = as.map (fun a => (object a).toText) ∧
      List.Forall₂ Shows (r.outcome w).output.lines as ∧
      ((r.outcome w).status = 0 ↔ ∀ a ∈ as, a.2.isOk) ∧
      (r.outcome w).failure = none) ∧
    ∀ w w' whole s t, s.EndsLine → r.Finds w o s → r.Finds w' o t → r.Finds whole o (s ++ t) →
      (∃ as as', Answers r.kind (r.inForce o) 1 s.lines as ∧
        Answers r.kind (r.inForce o) 1 t.lines as' ∧
        (r.outcome w).output = printAnswers as ∧
        (r.outcome w').output = printAnswers as' ∧
        (r.outcome whole).output =
          printAnswers (as ++ as'.map fun a => (a.1 + s.lines.length, a.2)) ∧
        (r.outcome whole).output = (r.outcome w).output ++
          printAnswers (as'.map fun a => (a.1 + s.lines.length, a.2)) ∧
        List.Forall₂ Shows (r.outcome whole).output.lines
          (as ++ as'.map fun a => (a.1 + s.lines.length, a.2))) ∧
      ((r.outcome whole).status = 0 ↔ (r.outcome w).status = 0 ∧ (r.outcome w').status = 0) := by
  have hstatus : ∀ as : List Answer,
      (if as.all fun a => a.2.isOk then 0 else 1) = 0 ↔ ∀ a ∈ as, a.2.isOk := by
    intro as
    simp [List.all_eq_true]
  constructor
  · intro w t hfinds
    obtain ⟨as, has⟩ := exists_answers r.kind (r.inForce o) 1 t.lines
    rw [has.outcome_eq hall hfinds]
    exact ⟨as, has, rfl, lines_printAnswers as, shows_lines_printAnswers as, hstatus as, rfl⟩
  · intro w w' whole s t hs hfinds hfinds' hwhole
    obtain ⟨as, has⟩ := exists_answers r.kind (r.inForce o) 1 s.lines
    obtain ⟨as', has'⟩ := exists_answers r.kind (r.inForce o) 1 t.lines
    have happend := has.append (has'.raise s.lines.length)
    rw [← lines_append hs] at happend
    rw [has.outcome_eq hall hfinds, has'.outcome_eq hall hfinds', happend.outcome_eq hall hwhole]
    refine ⟨⟨as, as', has, has', rfl, rfl, rfl, List.flatMap_append,
      shows_lines_printAnswers _⟩, ?_⟩
    simp only [hstatus, List.forall_mem_append, List.forall_mem_map]

/-- Two numbers and a text that is none, under a limit of one alternative. The second text is
answered from the third line on, as the first one has a line that is blank. -/
theorem answers_line_by_line_numbers :
    let config : List UInt8 := Utf8.encode "\x7b\"max_alternatives\": 1\x7d".toList
    let world (t : Text) : World :=
      ⟨fun path => if path = ['c'] then some config else none, Utf8.encode t⟩
    let r : Request := ⟨.int, none, some ['c'], false, false, false⟩
    let s : Text := ['1', '2', '\r', '\n', ' ', '\n']
    let t : Text := ['x', '\n', '7']
    r.all = false ∧ s.EndsLine ∧ r.Finds (world s) ⟨true, some 1⟩ s ∧
      r.Finds (world t) ⟨true, some 1⟩ t ∧ r.Finds (world (s ++ t)) ⟨true, some 1⟩ (s ++ t) ∧
      (∃ as, Answers .int ⟨true, some 1⟩ 1 [['1', '2'], [' '], ['x'], ['7']] as ∧
        (r.outcome (world (s ++ t))).output = printAnswers as ∧
        List.Forall₂ Shows (r.outcome (world (s ++ t))).output.lines as) ∧
      (∃ as as', (r.outcome (world s)).output = printAnswers as ∧
        (r.outcome (world t)).output = printAnswers as' ∧
        (r.outcome (world (s ++ t))).output =
          printAnswers (as ++ as'.map fun a => (a.1 + 2, a.2))) ∧
      ((r.outcome (world (s ++ t))).status = 0 ↔
        (r.outcome (world s)).status = 0 ∧ (r.outcome (world t)).status = 0) := by
  intro config world r s t
  have ho : Options.ofBytes config = .ok ⟨true, some 1⟩ := by decide +kernel
  have hfinds (u : Text) (hu : Utf8.text? (Utf8.encode u) = some u) :
      r.Finds (world u) ⟨true, some 1⟩ u := ⟨⟨config, rfl, ho⟩, _, rfl, hu⟩
  have hs := hfinds s (by decide +kernel)
  have ht := hfinds t (by decide +kernel)
  have hwhole := hfinds (s ++ t) (by decide +kernel)
  have hends : s.EndsLine := by decide
  have hlines : (s ++ t).lines = [['1', '2'], [' '], ['x'], ['7']] := by decide +kernel
  have hlength : s.lines.length = 2 := by decide +kernel
  obtain ⟨heach, happend⟩ := answers_line_by_line r rfl ⟨true, some 1⟩
  obtain ⟨as, has, houtput, -, hshows, -⟩ := heach _ _ hwhole
  obtain ⟨⟨as₁, as₂, -, -, hfirst, hsecond, htogether, -⟩, hstatus⟩ :=
    happend _ _ _ s t hends hs ht hwhole
  rw [hlines] at has
  rw [hlength] at htogether
  exact ⟨rfl, hends, hs, ht, hwhole, ⟨as, has, houtput, hshows⟩,
    ⟨as₁, as₂, hfirst, hsecond, htogether⟩, hstatus⟩

/-! ### The first line that is not blank -/

section FirstLine

variable {r : Request} {w : World} {o : Options} {t line : Text} {before later : List Text}

theorem exists_shows_of_output_eq {n : ℕ} {res : Except ParseError Json} {more : List Answer}
    (h : (r.outcome w).output = printAnswers ((n, res) :: more)) :
    ∃ s ∈ (r.outcome w).output.lines.head?, Shows s (n, res) := by
  rw [h, lines_printAnswers]
  exact ⟨_, rfl, shows_toText (n, res)⟩

theorem output_eq_cons (hall : r.all = false) (hfinds : r.Finds w o t)
    (hlines : t.lines = before ++ line :: later) (hbefore : ∀ l ∈ before, ∀ c ∈ l, isBlank c)
    (hline : ¬∀ c ∈ line, isBlank c) {res : Except ParseError Json}
    (hres : (r.kind.parser.run (r.inForce o) line).result = some res) :
    ∃ more, (r.outcome w).output = printAnswers ((before.length + 1, res) :: more) := by
  obtain ⟨more, hmore⟩ := exists_answers r.kind (r.inForce o) (1 + before.length + 1) later
  have has := (Answers.blanks hbefore).append (.answer hline hres hmore)
  rw [← hlines, Nat.add_comm 1] at has
  exact ⟨more, congrArg Outcome.output (has.outcome_eq hall hfinds)⟩

theorem outcome_of_all (hall : r.all = true) (hfinds : r.Finds w o t)
    (hlines : t.lines = before ++ line :: later) (hbefore : ∀ l ∈ before, ∀ c ∈ l, isBlank c)
    (hline : ¬∀ c ∈ line, isBlank c) :
    r.outcome w =
      ⟨0, ((r.kind.parser line).alternatives ()).toList.flatMap fun a =>
        (alternativeObject (before.length + 1) a).toText ++ ['\n'], none⟩ := by
  obtain ⟨more, hmore⟩ := numberedLines_eq_cons hlines hbefore hline
  rw [hfinds.outcome_eq, if_pos hall, enumerateFirst, hmore]
  simp only [Alternatives.collect_eq]
  rfl

theorem writes_lines_alternatives (n : ℕ) (as : List (Alternative Json)) :
    List.Forall₂ (fun s a => Json.Writes s (alternativeObject n a))
      (lines (as.flatMap fun a => (alternativeObject n a).toText ++ ['\n'])) as := by
  have hobject : ∀ a, ∃ fields, alternativeObject n a = .object fields := fun a => ⟨_, rfl⟩
  rw [lines_flatMap_toText hobject, List.forall₂_map_left_iff, List.forall₂_same]
  exact fun a _ => Json.writes_toText _

end FirstLine

/-- **The two modes agree.** On a text with a line that is not blank, the request for all
alternatives prints those of the first such line, under its number, one JSON object for each.
Without this flag and under the default options, the first printed line is a JSON object for the
line with the same number, and it shows what these alternatives tell: the value, or the message that
names the point and quotes what is left over. If in addition a parse may be partial, the answer is
the value of the first alternative, and an error if and only if there are no alternatives. -/
theorem modes_agree (r : Request) {w : World} {t : Text} (hfinds : r.Finds w {} t)
    (hnonblank : ∃ l ∈ t.lines, ¬∀ c ∈ l, isBlank c) :
    ∃ before line later, t.lines = before ++ line :: later ∧
      (∀ l ∈ before, ∀ c ∈ l, isBlank c) ∧ (¬∀ c ∈ line, isBlank c) ∧
      let n := before.length + 1
      let as := ((r.kind.parser line).alternatives ()).toList
      ({ r with all := true }.outcome w =
        ⟨0, as.flatMap fun a => (alternativeObject n a).toText ++ ['\n'], none⟩) ∧
      List.Forall₂ (fun s a => Json.Writes s (alternativeObject n a))
        ({ r with all := true }.outcome w).output.lines as ∧
      (∃ res more, ({ r with partially := false, all := false }.outcome w).output =
          printAnswers ((n, res) :: more) ∧ Parser.ReadOff line as res ∧
        ∃ s ∈ ({ r with partially := false, all := false }.outcome w).output.lines.head?,
          Shows s (n, res)) ∧
      ∃ res more, ({ r with partially := true, all := false }.outcome w).output =
          printAnswers ((n, res) :: more) ∧
        (∃ s ∈ ({ r with partially := true, all := false }.outcome w).output.lines.head?,
          Shows s (n, res)) ∧
        (∀ a ∈ as.head?, res = .ok a.value) ∧
        (res = .error (.noParse ⟨0, 1, 1⟩) ↔ as = []) := by
  obtain ⟨before, line, later, hlines, hbefore, hline⟩ := exists_first_line hnonblank
  have hgreedy := r.kind.greedy line
  have hnewline : '\n' ∉ line := newline_not_mem_of_mem_lines (t := t) (by simp [hlines])
  -- What a request finds does not depend on its flags.
  have hfinds' (partially all : Bool) :
      { r with partially := partially, all := all }.Finds w {} t := ⟨hfinds.options, hfinds.text⟩
  obtain ⟨res, hres, hreadOff⟩ := Parser.exists_readOff hgreedy.ends hgreedy.suffix hnewline
  obtain ⟨res', hres', hfirst⟩ := Parser.exists_result_runFirst hgreedy.ends
  obtain ⟨more, hmore⟩ := output_eq_cons rfl (hfinds' false false) hlines hbefore hline hres
  obtain ⟨more', hmore'⟩ := output_eq_cons rfl (hfinds' true false) hlines hbefore hline hres'
  have hall := outcome_of_all rfl (hfinds' r.partially true) hlines hbefore hline
  refine ⟨before, line, later, hlines, hbefore, hline, hall, ?_,
    ⟨res, more, hmore, hreadOff, exists_shows_of_output_eq hmore⟩,
    res', more', hmore', exists_shows_of_output_eq hmore', hfirst⟩
  rw [hall]
  exact writes_lines_alternatives _ _

/-- A blank line and an integer with a letter of two bytes behind it: one alternative leaves over
the letter, another one also a digit. -/
theorem modes_agree_letter :
    let r : Request := ⟨.int, none, none, false, false, false⟩
    let t : Text := [' ', '\n', '1', '2', 'é']
    let line : Text := ['1', '2', 'é']
    let w : World := ⟨fun _ => none, Utf8.encode t⟩
    let as := ((Kind.int.parser line).alternatives ()).toList
    r.Finds w {} t ∧ (∃ l ∈ t.lines, ¬∀ c ∈ l, isBlank c) ∧
      as.map (·.rest) = [['é'], ['2', 'é']] ∧
      ({ r with all := true }.outcome w).output =
        as.flatMap (fun a => (alternativeObject 2 a).toText ++ ['\n']) ∧
      (∃ res more, (r.outcome w).output = printAnswers ((2, res) :: more) ∧
        Parser.ReadOff line as res ∧
        ∃ s ∈ (r.outcome w).output.lines.head?, Shows s (2, res)) ∧
      ∃ res more, ({ r with partially := true }.outcome w).output =
          printAnswers ((2, res) :: more) ∧ ∀ a ∈ as.head?, res = .ok a.value := by
  intro r t line w as
  have hlines : t.lines = [[' '], line] := by decide +kernel
  have hfinds : r.Finds w {} t := ⟨rfl, Utf8.encode t, rfl, by decide +kernel⟩
  have hblank : ∀ c ∈ [' '], isBlank c := List.all_eq_true.mp (by decide)
  have hnonblank : ∃ l ∈ t.lines, ¬∀ c ∈ l, isBlank c := by
    refine ⟨line, by simp [hlines], fun h => ?_⟩
    exact absurd (h '1' List.mem_cons_self) (by decide)
  obtain ⟨before, line', later, hsplit, hbefore, hline, hall, -, hcomplete, hpartial⟩ :=
    modes_agree r hfinds hnonblank
  rw [hlines] at hsplit
  obtain ⟨rfl, rfl⟩ : before = [[' ']] ∧ line' = line := by
    rcases before with _ | ⟨b, _ | ⟨b', before⟩⟩
    · obtain ⟨rfl, -⟩ := List.cons.inj hsplit
      exact absurd hblank hline
    · obtain ⟨rfl, hline'⟩ := List.cons.inj hsplit
      exact ⟨rfl, (List.cons.inj hline').1.symm⟩
    · simp at hsplit
  obtain ⟨res, more, houtput, -, hfirst, -⟩ := hpartial
  exact ⟨hfinds, hnonblank, by decide +kernel, congrArg Outcome.output hall, hcomplete,
    res, more, houtput, hfirst⟩

example :
    let r : Request := ⟨.int, none, none, false, false, false⟩
    let w : World := ⟨fun _ => none, Utf8.encode [' ', '\n', '1', '2', 'é']⟩
    (r.outcome w).output.lines =
      [("\x7b\"error\":\"Incomplete parse at line 1, column 3: ".toList ++
        "unconsumed \\\"é\\\"\",\"line\":2\x7d".toList)] := by
  decide +kernel

end CommandLine

end Backtrack
