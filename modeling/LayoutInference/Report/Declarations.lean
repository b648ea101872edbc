import LayoutInference.Report.Content

/-!
# Reports as C declarations

Record definitions, function prototypes and variable definitions. Layouts are texts here: a text that
marks the place of the name gets the name there, any other is followed by it.
-/

namespace LayoutInference.Report

/-- The text after the mark that holds the place of a name, if the text starts with it. -/
def afterHole? : List Char → Option (List Char)
  | '\x7b' :: 'v' :: 'a' :: 'r' :: '\x7d' :: cs => some cs
  | _ => none

/-- A text with a name in every marked place. Also tells whether there was one. -/
def fillHoles (name : String) : (skip : Nat) → List Char → String × Bool
  | _, [] => ("", false)
  | skip + 1, _ :: cs => fillHoles name skip cs
  | 0, c :: cs =>
    if (afterHole? (c :: cs)).isSome then (name ++ (fillHoles name 4 cs).1, true)
    else
      let (rest, filled) := fillHoles name 0 cs
      (c.toString ++ rest, filled)

/-- The declaration of a name with a written layout. -/
def declare (type name : String) : String :=
  let (filled, found) := fillHoles name 0 type.toList
  if found then filled
  else if type.endsWith "*" then type ++ name
  else type ++ " " ++ name

/-- The definition of a record. -/
def Record.definition (r : Record) : String :=
  "\nstruct " ++ r.name ++ " \x7b\n"
    ++ String.join ((r.fields.getD []).map fun f => "    " ++ declare f.type f.name ++ ";\n")
    ++ "\x7d;\n"

/-- The prototype of a function. -/
def Function.prototype (f : Function) : String :=
  let params := f.params.map fun p => declare p.type p.name
  declare f.returned f.name ++ "(" ++ ", ".intercalate (if params.isEmpty then ["void"] else params)
    ++ ");\n"

/-- The definition of a variable. -/
def Variable.definition (v : Variable) : String :=
  v.declaration ++ ";" ++ (if v.allocate then " /* heap */" else "") ++ "\n"

/-- A group of lines, set off by an empty line before it. -/
def group (lines : List String) : String := if lines.isEmpty then "" else "\n" ++ String.join lines

/-- The report as C declarations: records, functions, then all variables that are not parameters. -/
def declarations (r : Report) : String :=
  (if r.file = "" then "" else "/* " ++ r.file ++ " */\n")
    ++ String.join (r.records.map Record.definition)
    ++ group (r.functions.map Function.prototype)
    ++ group ((r.vars.filter fun v => !v.parameter).map Variable.definition)

end LayoutInference.Report
