import AppManager.Mustach.Template

/-! What a template means. A section is rendered once for each item that its name has in the
context, and a partial is the rendering of its content with the prefix of its line. -/

namespace AppManager.Mustach
open AppManager.Lib AppManager.Lib.Calls

/-- The values that names have in a context. A section is for the contexts of its items. -/
structure View (Context : Type) where
  value : Context → Bytes → Bool → Except Failure Bytes
  items : Context → Bytes → Except Failure (List Context)
  inclusion : Context → Bytes → Except Failure Bytes

variable {Context : Type}

/-- How the content of a partial is rendered: in a context, after these prefixes and this file. -/
abbrev Expansion (Context : Type) := Context → Bytes → List Bytes → Bytes → Option (Except Failure Bytes)

section
variable (view : View Context) (expand : Expansion Context) (outer : List Bytes)

def Layout.write (layout : Layout) (written : Bytes) : Layout := { layout with file := layout.file ++ written }

def renderValue (context : Context) (name : Bytes) (escape enabled : Bool) (layout : Layout) :
    Option (Except Failure Layout) :=
  if enabled then some ((view.value context name escape).map layout.write) else some (.ok layout)

def renderInclusion (context : Context) (name : Bytes) (enabled : Bool) (layout : Layout) :
    Option (Except Failure Layout) :=
  if enabled then
    after (some (view.inclusion context name)) fun content =>
      after (expand context content (layout.pref.outer ++ [layout.pref.own]) layout.file) fun file =>
        some (.ok { layout with file := file })
  else some (.ok layout)

mutual

def renderNode : Node → Context → Bool → Layout → Option (Except Failure Layout)
  | .text chunk, _, enabled, layout => some (.ok (layout.readAll enabled outer chunk))
  | .mark, _, enabled, layout => some (.ok (layout.tag enabled false))
  | .value name escape, context, enabled, layout =>
    renderValue view context name escape enabled (layout.tag enabled true)
  | .inclusion name, context, enabled, layout =>
    renderInclusion view expand context name enabled (layout.tag enabled false)
  | .block inverted name body, context, enabled, layout =>
    if enabled then
      match view.items context name with
      | .error failure => some (.error failure)
      | .ok [] => renderNodes body context inverted (layout.tag true false)
      | .ok (item :: items) =>
        if inverted then renderNodes body context false (layout.tag true false)
        else each (fun item => renderNodes body item true) (item :: items) (layout.tag true false)
    else renderNodes body context false (layout.tag false false)
  | .fail rc, _, _, _ => some (.error (.status rc))

def renderNodes : List Node → Context → Bool → Layout → Option (Except Failure Layout)
  | [], _, _, layout => some (.ok layout)
  | node :: rest, context, enabled, layout =>
    after (renderNode node context enabled layout) (renderNodes rest context enabled)

end

theorem renderNodes_append (first second : List Node) (context : Context) (enabled : Bool) (layout : Layout) :
    renderNodes view expand outer (first ++ second) context enabled layout =
      after (renderNodes view expand outer first context enabled layout)
        (renderNodes view expand outer second context enabled) := by
  induction first generalizing layout with
  | nil =>
    rw [List.nil_append, renderNodes]
    rfl
  | cons node rest ih =>
    rw [List.cons_append, renderNodes, renderNodes, after_assoc]
    exact congrArg (after _) (funext ih)

end

/-- The rendering of a template where partials are at most this deep, after a file. -/
def render (flags : Flags) (view : View Context) : Nat → Expansion Context
  | 0, _, _, _, _ => none
  | depth + 1, context, template, outer, file =>
    (parseTemplate flags template).bind fun nodes =>
      after (renderNodes view (render flags view depth) outer nodes context true ⟨[], .blank, ⟨outer, []⟩, file⟩)
        fun layout => some (.ok (layout.flush true []))

end AppManager.Mustach
