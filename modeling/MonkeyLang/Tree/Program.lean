import MonkeyLang.Halt
import MonkeyLang.Tree.Object
import MonkeyLang.Tree.Render

/-!
Programs as they are run: trees whose labels are JSON values. Those of program text are texts; a
saved tree may have others, and is a program all the same. Main statement: `toCode_toProgram` says
that program text becomes a program and is shown again without a change.
-/

namespace MonkeyLang

/-- A tree that can be run. -/
abbrev Program := Tree Json

namespace Tree

/-- The program that program text is. -/
def toProgram (t : Code) : Program :=
  t.mapLabels .string

/-- The program text that is shown for a program. A label that is no text stands there as messages
show it. -/
def toCode (t : Program) : Code :=
  t.mapLabels Json.display

theorem toCode_toProgram (t : Code) : t.toProgram.toCode = t :=
  mapLabels_mapLabels_cancel (fun _ => rfl) t

mutual

/-- The first name that is no text, in the order of rendering: the value of a `let` comes before
its name, and the arguments of a call before what is called. -/
def nonTextName? : Program → Option Json
  | .missing | .integer _ | .string _ | .boolean _ => none
  | .program ss | .block ss => nonTextNameAmong? ss
  | .letStatement x t => t.nonTextName?.or x.nonText?
  | .returnStatement t | .expressionStatement t | .prefixed _ t => t.nonTextName?
  | .identifier x => x.nonText?
  | .infixed l _ r => l.nonTextName?.or r.nonTextName?
  | .conditional c t e => c.nonTextName?.or (t.nonTextName?.or e.nonTextName?)
  | .function ps t => (ps.findSome? Json.nonText?).or t.nonTextName?
  | .call f as => (nonTextNameAmong? as).or f.nonTextName?
termination_by structural t => t

def nonTextNameAmong? : List Program → Option Json
  | [] => none
  | t :: ts => t.nonTextName?.or (nonTextNameAmong? ts)
termination_by structural ts => ts

end

/-- The text of a program, which must nest within the limit and have texts for names. -/
def renderProgram (t : Program) : Except Halt String :=
  if t.fits nestingLimit then
    match t.nonTextName? with
    | none => .ok t.toCode.render
    | some j => .error (.label (.nameNotText j.className))
  else .error .tooDeep

end Tree

end MonkeyLang
