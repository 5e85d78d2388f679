import Ratect.Text
import Ratect.Interrupt

/-! # Tasks and the prerequisite pre-check

The task map, the lookup every reader of it shares (`find_task`), the expansion of wildcard
prerequisites, and `check_prerequisites`, which walks the whole prerequisite order before any of
it runs (`engine.rs`).

The `regex` crate is not part of the program: `RegexCrate` is what it offers, the escaping of a
literal and the compilation of a source, which may fail.  The walk of `check_prerequisites` is
bounded by the path it carries, whose names are distinct tasks; the model counts that bound down
(`fuel`), and `checkPrerequisites` starts it high enough never to run out. -/

namespace Ratect

/-! ### The task map -/

/-- A task's `run`: the container it runs (the fields that only shape that container are not
read here). -/
structure TaskRun where
  container : String
deriving DecidableEq, Repr

/-- A task. -/
structure Task where
  run : Option TaskRun
  prerequisites : Option (List String)
  dependencies : Option (List String)
deriving DecidableEq, Repr

/-- The task map (`IndexMap<String, Task>`): entries in declaration order, each name once. -/
structure Tasks where
  entries : List (String × Task)
  nodup : (entries.map Prod.fst).Nodup

namespace Tasks

/-- The names, in declaration order. -/
def keys (tasks : Tasks) : List String := tasks.entries.map Prod.fst

/-- The task of a name. -/
def get? (tasks : Tasks) (name : String) : Option Task :=
  (tasks.entries.find? fun e => e.1 == name).map Prod.snd

theorem mem_keys_of_get? {tasks : Tasks} {name : String} {task : Task}
    (h : tasks.get? name = some task) : name ∈ tasks.keys := by
  unfold get? at h
  obtain ⟨e, he, rfl⟩ := Option.map_eq_some_iff.mp h
  have hn : e.1 = name := by simpa using List.find?_some he
  rw [← hn]
  exact List.mem_map_of_mem (List.mem_of_find?_eq_some he)

end Tasks

/-! ### Suggestions for a mistyped name -/

/-- `previous_row` and `current_row`. -/
structure EditRows where
  previousRow : List ℕ
  currentRow : List ℕ

/-- The entry of `current_row` at `j`. -/
def fillEntry (a b : Text) (i : ℕ) (rows : EditRows) (j : ℕ) : EditRows :=
  let entry :=
    if a[i - 1]? = b[j - 1]? then rows.previousRow.getD (j - 1) 0
    else 1 + min (min (rows.previousRow.getD (j - 1) 0) (rows.previousRow.getD j 0))
      (rows.currentRow.getD (j - 1) 0)
  { rows with currentRow := rows.currentRow.set j entry }

/-- The row `i`: the entry at 0, the others in turn, and the swap. -/
def fillRow (a b : Text) (rows : EditRows) (i : ℕ) : EditRows :=
  let filled := (List.range' 1 b.length).foldl (fillEntry a b i)
    { rows with currentRow := rows.currentRow.set 0 i }
  ⟨filled.currentRow, filled.previousRow⟩

/-- `edit_distance`: Wagner–Fischer over two rows. -/
def editDistanceOverRows (a b : Text) : ℕ :=
  ((List.range' 1 a.length).foldl (fillRow a b)
    ⟨List.range (b.length + 1), List.replicate (b.length + 1) 0⟩).previousRow.getD b.length 0

/-- `suggest_task_names`: the names within distance three, closest first, ties by name. -/
def suggestTaskNames (tasks : Tasks) (name : String) : List String :=
  let suggestions := (tasks.keys.map fun t => (editDistanceOverRows name.toList t.toList, t)).filter
    fun s => s.1 ≤ 3
  (suggestions.insertionSort fun s t => s.1 < t.1 ∨ s.1 = t.1 ∧ s.2 ≤ t.2).map Prod.snd

/-- `human_readable_list`: `a`, `a or b`, `a, b or c`. -/
def humanReadableList (items : List String) (conjunction : String) : String :=
  match items with
  | [] => ""
  | [only] => only
  | _ => ", ".intercalate items.dropLast ++ s!" {conjunction} " ++ items.getLastD ""

/-- `format_task_suggestions`: the ` Did you mean …?` suffix, or nothing. -/
def formatTaskSuggestions (tasks : Tasks) (name : String) : String :=
  let suggestions := suggestTaskNames tasks name
  if suggestions.isEmpty then ""
  else
    let quoted := suggestions.map fun s => s!"'{s}'"
    " Did you mean " ++ humanReadableList quoted "or" ++ "?"

/-! ### Errors -/

/-- The errors of finding and ordering tasks.  `unknownTask` is the typed error of the requested
task, `missingPrerequisite` the same message untyped; `body` is any failure of a task's own run. -/
inductive TaskError where
  | unknownTask (task suggestions : String)
  | missingPrerequisite (task suggestions : String)
  | taskCycle (name : String)
  | invalidPattern (source : String)
  | interrupted (signal : TerminationSignal)
  | body (message : String)
  | outOfFuel
deriving DecidableEq, Repr

/-- The message of an error. -/
def TaskError.message : TaskError → String
  | unknownTask task suggestions => s!"Task '{printableString task}' not found.{suggestions}"
  | missingPrerequisite task suggestions =>
      s!"Task '{printableString task}' not found.{suggestions}"
  | taskCycle name => s!"Dependency cycle detected involving task '{name}'"
  | invalidPattern source => s!"Invalid wildcard prerequisite pattern '{printableString source}'"
  | interrupted signal => signal.endedRun
  | body message => message
  | outOfFuel => ""

/-- `find_task`: the task of a name, or the error a run fails with when there is none. -/
def findTask (tasks : Tasks) (name : String) (requested : Bool) : Except TaskError Task :=
  match tasks.get? name with
  | some task => .ok task
  | none =>
      let suggestions := formatTaskSuggestions tasks name
      .error (if requested then .unknownTask name suggestions
        else .missingPrerequisite name suggestions)

/-! ### Wildcards -/

/-- What the program uses of the `regex` crate: `regex::escape`, and `Regex::new` with the
`is_match` of what it returns. -/
structure RegexCrate where
  escape : String → String
  new : String → Option (String → Bool)

section tasks

variable (regex : RegexCrate) (tasks : Tasks)

/-- `wildcard_to_regex`: the segments between the `*`s, escaped and joined by `.*`, anchored. -/
def wildcardToRegex (pattern : String) : Except TaskError (String → Bool) :=
  let escapedSegments := (pattern.toList.splitOn '*').map fun s => regex.escape (String.ofList s)
  let source := "^" ++ ".*".intercalate escapedSegments ++ "$"
  match regex.new source with
  | some isMatch => .ok isMatch
  | none => .error (.invalidPattern source)

/-- The names one entry of a prerequisite list stands for: itself where it has no `*`, and
otherwise the sorted names it matches. -/
def expandEntry (pattern : String) : Except TaskError (List String) :=
  if '*' ∈ pattern.toList then do
    let isMatch ← wildcardToRegex regex pattern
    return (tasks.keys.filter fun name => isMatch name).insertionSort (· ≤ ·)
  else return [pattern]

/-- `expand_prerequisite_wildcards`: every entry expanded, in the order of the list. -/
def expandPrerequisiteWildcards : List String → Except TaskError (List String)
  | [] => .ok []
  | pattern :: patterns => do
      let expanded ← expandEntry regex tasks pattern
      let rest ← expandPrerequisiteWildcards patterns
      return expanded ++ rest

/-! ### The pre-check -/

/-- The first loop of `visit`: every entry is looked up and checked against the path before any
of them is walked into. -/
def resolveAll (path : List String) : List String → Except TaskError (List (String × Task))
  | [] => .ok []
  | name :: names => do
      let prerequisite ← findTask tasks name false
      if name ∈ path then throw (.taskCycle name)
      let resolved ← resolveAll path names
      return (name, prerequisite) :: resolved

/-- The second loop of `visit`: each entry not yet checked is visited with itself on the path. -/
def visitAll (visit : List String → List String → Task → Except TaskError (List String))
    (path : List String) : List String → List (String × Task) → Except TaskError (List String)
  | checked, [] => .ok checked
  | checked, (name, prerequisite) :: resolved =>
      if name ∈ checked then visitAll visit path checked resolved
      else do
        let checked ← visit (path ++ [name]) checked prerequisite
        visitAll visit path (checked ++ [name]) resolved

/-- The inner `visit` of `check_prerequisites`; the value is the set of checked names. -/
def visit : ℕ → List String → List String → Task → Except TaskError (List String)
  | 0, _, _, _ => .error .outOfFuel
  | fuel + 1, path, checked, task =>
      match task.prerequisites with
      | none => .ok checked
      | some prerequisites => do
          let names ← expandPrerequisiteWildcards regex tasks prerequisites
          let resolved ← resolveAll tasks path names
          visitAll (visit fuel) path checked resolved

/-- `check_prerequisites`. -/
def checkPrerequisites (taskName : String) (skipPrerequisites : Bool) : Except TaskError Unit := do
  let task ← findTask tasks taskName true
  if skipPrerequisites then return ()
  let _ ← visit regex tasks (tasks.entries.length + 1) [taskName] [] task
  return ()

end tasks

end Ratect
