import ShaderScript.Emit.Form

/-!
# Conditionals and switches

Cases without a body of their own share the body of the next case that has one, or of the default
case if that comes first. So the cases of a switch fall into groups, each with one body.
-/

namespace ShaderScript

/-- A group of cases with their common body, or the default case. A body is absent if the case has
no statements. -/
inductive Arm (α β : Type) where
  /-- The group is `closed` if a body or the default case ends it. -/
  | cases (labels : List α) (body : Option β) (closed : Bool)
  | default (body : Option β)

namespace Arm

variable {α β : Type}

/-- Groups cases, given by their label and their body. The labels in `pending` wait for a body. -/
def group : (pending : List α) → List (Option α × Option β) → List (Arm α β)
  | [], [] => []
  | pending, [] => [.cases pending none false]
  | [], (none, body) :: rest => .default body :: group [] rest
  | pending, (none, body) :: rest => .cases pending body true :: .default body :: group [] rest
  | pending, (some label, none) :: rest => group (pending ++ [label]) rest
  | pending, (some label, some body) :: rest =>
    .cases (pending ++ [label]) (some body) true :: group [] rest

end Arm

namespace Form

open Script

/-- One arm of a switch, at the given depth. -/
def arm (depth : Nat) : Arm Fragment Fragment → Fragment
  | .cases labels body closed =>
    let texts := Fragment.texts labels
    ⟨"." ++ apply "Case" (texts ++ [thunk depth ((body.map Fragment.text).getD "")]),
      Fragment.allNotes labels ++ (if closed then [] else [.report (.unterminatedCases texts)]) ++
        (body.map Fragment.notes).getD []⟩
  | .default body =>
    ⟨"." ++ apply "Default" [thunk depth ((body.map Fragment.text).getD "")],
      (body.map Fragment.notes).getD []⟩

/-- A switch over the given cases, whose arms stand one level below it. -/
def switch (depth : Nat) (discriminant : Fragment)
    (cases : List (Option Fragment × Option Fragment)) : Fragment :=
  let arms := (Arm.group [] cases).map (arm (depth + 1))
  ⟨apply "Switch" [discriminant.text] ++ "\n" ++ tabs (depth + 1) ++
      String.join (Fragment.texts arms),
    discriminant.notes ++ Fragment.allNotes arms ++ [.require "Switch"]⟩

/-- An `else` link; its body is looked at before its condition. -/
def alternate (depth : Nat) : Option Fragment × Fragment → Fragment
  | (some condition, body) =>
    ⟨"." ++ apply "ElseIf" [condition.text, thunk depth body.text], body.notes ++ condition.notes⟩
  | (none, body) => ⟨"." ++ apply "Else" [thunk depth body.text], body.notes⟩

def conditional (depth : Nat) (condition body : Fragment)
    (alternates : List (Option Fragment × Fragment)) : Fragment :=
  let links := alternates.map (alternate depth)
  ⟨apply "If" [condition.text, thunk depth body.text] ++ String.join (Fragment.texts links),
    condition.notes ++ body.notes ++ Fragment.allNotes links ++ [.require "If"]⟩

end Form

end ShaderScript
