import Mathlib.Data.List.Forall2
import ShaderScript.Emit.Function
import ShaderScript.Proofs.Tree

/-!
# Texts with their names marked

A text of the target language is made of the names that have to be bound for it to run, and of
pieces that are no such names: signs, words of the language, methods of what stands before them, keys
of entries, texts in quotes, comments, numbers, and names where they are introduced. `Marked` takes a
text apart in this way and lists the names of the first kind. What a piece of another kind can be is
fixed, or it is a string of the program in the role that its node gives it.
-/

namespace ShaderScript

/-- What a string of a program is in a text, other than a name that has to be bound. -/
inductive Role where
  /-- A number, as it was written. -/
  | number
  /-- A name that the program introduces. -/
  | own
  /-- A text in quotes. -/
  | quoted
deriving DecidableEq

namespace Script

/-- The character can be part of a name. -/
def isWordChar (c : Char) : Bool :=
  c.isAlphanum || c == '_' || c == '$'

/-- The words of the target language that documents are written with, and the name of the store that
uniforms refer to. -/
def words : List String :=
  ["const", "export", "return", "true", "false", "uniforms"]

/-- The methods that are called on what stands before them. -/
def methods : List String :=
  BinaryOp.all.map BinaryOp.method ++ UnaryOp.all.filterMap UnaryOp.method? ++
    ["incrementBefore", "decrementBefore", "sample", "bias", "level", "grad", "setSampler",
      "element", "toVar", "ElseIf", "Else", "Case", "Default"]

/-- The keys of entries. The parameters of a function are keys in its layout as well. -/
def keys : List String :=
  ["start", "end", "name", "type", "condition", "update", "return"]

def comments : List String :=
  [unknownStatement, "/*#__PURE__*/", "/* <THREE.Texture> */", "/* <THREE.CubeTexture> */",
    "/* <THREE.Data3DTexture> */"]

end Script

/-- The text is put together from the names, in this order, and from pieces that are no names; `R`
says which strings have which role. -/
inductive Marked (R : Role → String → Prop) : List String → String → Prop
  /-- An identifier, or a function that is called. -/
  | name (name : String) : Marked R [name] name
  | signs (text : String) (h : (text.toList.all fun c => !Script.isWordChar c) = true) :
    Marked R [] text
  | word {word : String} (h : word ∈ Script.words) : Marked R [] word
  | method {name : String} (h : name ∈ Script.methods) : Marked R [] ("." ++ name)
  | key {name : String} (h : name ∈ Script.keys ∨ R .own name) : Marked R [] (name ++ ": ")
  | quoted {text : String} (h : text = "value" ∨ R .quoted text) :
    Marked R [] (Script.literal text)
  | comment {text : String} (h : text ∈ Script.comments) : Marked R [] text
  | number {text : String} (h : R .number text) : Marked R [] text
  /-- A constant or a variable, where it is introduced. -/
  | binding {name : String} (h : R .own name) : Marked R [] (name ++ " = ")
  /-- The counter of a loop, as the parameter of a callback. -/
  | pattern {name : String} (h : R .own name) : Marked R [] (Script.braced [name])
  /-- The parameters of a function, or its overloads. -/
  | listed {names : List String} (h : ∀ name ∈ names, R .own name) :
    Marked R [] (Script.bracketed names)
  | append {names others : List String} {text other : String} (h : Marked R names text)
    (ho : Marked R others other) : Marked R (names ++ others) (text ++ other)

namespace Marked

variable {R : Role → String → Prop} {names : List String} {text : String}
  {parts : List (List String)} {texts : List String}

theorem before {start : String} (hs : Marked R [] start) (h : Marked R names text) :
    Marked R names (start ++ text) :=
  hs.append h

theorem after {finish : String} (h : Marked R names text) (hf : Marked R [] finish) :
    Marked R names (text ++ finish) := by
  simpa using h.append hf

theorem empty : Marked R [] "" :=
  .signs _ rfl

/-- A word and the blank behind it. -/
theorem spaced {word : String} (h : word ∈ Script.words) : Marked R [] (word ++ " ") :=
  (Marked.word h).after (.signs _ (by decide))

theorem intercalate {separator : String} (hs : Marked R [] separator)
    (h : List.Forall₂ (Marked R) parts texts) :
    Marked R parts.flatten (separator.intercalate texts) := by
  induction h with
  | nil => exact empty
  | @cons first text rest texts hf hr ih =>
    cases hr with
    | nil => simpa using hf
    | cons =>
      rw [String.intercalate_cons_cons, String.append_assoc]
      exact hf.append (hs.before ih)

theorem join (h : List.Forall₂ (Marked R) parts texts) :
    Marked R parts.flatten (Script.join texts) :=
  intercalate (.signs _ (by decide)) h

theorem joined (h : List.Forall₂ (Marked R) parts texts) :
    Marked R parts.flatten (String.join texts) := by
  induction h with
  | nil => exact empty
  | cons hf hr ih => simpa using hf.append ih

/-- A call, whatever it is that is called. -/
theorem call {callee : String} (hc : Marked R names callee)
    (h : List.Forall₂ (Marked R) parts texts) :
    Marked R (names ++ parts.flatten) (Script.apply callee texts) := by
  have hj := join h
  cases h with
  | nil => simpa [Script.apply] using hc.after (.signs _ (by decide))
  | cons =>
    have hopen : Marked R names (callee ++ "( ") := hc.after (.signs _ (by decide))
    exact (hopen.append hj).after (.signs _ (by decide))

/-- A call of a function of the library. -/
theorem apply (name : String) (h : List.Forall₂ (Marked R) parts texts) :
    Marked R (name :: parts.flatten) (Script.apply name texts) :=
  call (.name name) h

theorem dot_apply (name : String) (texts : List String) :
    "." ++ Script.apply name texts = Script.apply ("." ++ name) texts := by
  cases texts <;> simp [Script.apply, String.append_assoc]

/-- A call of a method, without the object. -/
theorem link {name : String} (hm : name ∈ Script.methods)
    (h : List.Forall₂ (Marked R) parts texts) :
    Marked R parts.flatten ("." ++ Script.apply name texts) := by
  rw [dot_apply]
  exact call (.method hm) h

theorem methodCall {object name : String} (hm : name ∈ Script.methods)
    (ho : Marked R names object) (h : List.Forall₂ (Marked R) parts texts) :
    Marked R (names ++ parts.flatten) (Script.method object name texts) := by
  rw [Script.method, String.append_assoc]
  exact ho.append (link hm h)

theorem braced (h : List.Forall₂ (Marked R) parts texts) :
    Marked R parts.flatten (Script.braced texts) :=
  ((Marked.signs _ (by decide)).before (join h)).after (.signs _ (by decide))

theorem bracketed (h : List.Forall₂ (Marked R) parts texts) :
    Marked R parts.flatten (Script.bracketed texts) :=
  ((Marked.signs _ (by decide)).before (join h)).after (.signs _ (by decide))

theorem entry {key : String} (hk : key ∈ Script.keys ∨ R .own key) (h : Marked R names text) :
    Marked R names (Script.entry key text) :=
  (Marked.key hk).before h

theorem tabs (depth : Nat) : Marked R [] (Script.tabs depth) := by
  refine .signs _ (List.all_eq_true.mpr fun c hc => ?_)
  rw [Script.tabs, String.toList_ofList] at hc
  obtain rfl := List.eq_of_mem_replicate hc
  decide

theorem block (depth : Nat) (h : Marked R names text) : Marked R names (Script.block depth text) :=
  ((((Marked.signs _ (by decide)).before h).after (.signs _ (by decide))).after (tabs depth)).after
    (.signs _ (by decide))

theorem callback {params : String} (hp : Marked R [] params) (depth : Nat)
    (h : Marked R names text) : Marked R names (Script.callback params depth text) :=
  (hp.after (.signs _ (by decide))).before (h.block depth)

theorem thunk (depth : Nat) (h : Marked R names text) : Marked R names (Script.thunk depth text) :=
  callback (.signs _ (by decide)) depth h

/-- Texts without names. -/
theorem nameless (h : ∀ text ∈ texts, Marked R [] text) :
    List.Forall₂ (Marked R) (texts.map fun _ => []) texts := by
  rw [List.forall₂_map_left_iff, List.forall₂_same]
  exact h

/-- A text without names that may be left out. -/
theorem optional (p : Prop) [Decidable p] (h : Marked R [] text) :
    List.Forall₂ (Marked R) ((if p then [] else [text]).map fun _ => [])
      (if p then [] else [text]) := by
  refine nameless fun other hother => ?_
  split at hother
  · cases hother
  · rwa [List.mem_singleton.mp hother]

end Marked

/-! ## The roles of a program's strings -/

namespace Node

/-- The strings of a node that are written as something else than names to be bound. -/
def ownRoles : Node → List (Role × String)
  | .number value _ => [(.number, value)]
  | .string value => [(.quoted, value)]
  | .bindings declarators => declarators.flatMap fun declarator =>
      [(.own, declarator.name), (.quoted, declarator.name), (.quoted, declarator.type)]
  | .uniform name type | .varying name type =>
    [(.own, name), (.quoted, name), (.quoted, type)]
  | .function declaration =>
    (.own, declaration.name) :: (.quoted, declaration.type) ::
      declaration.params.flatMap fun parameter =>
        [(.own, parameter.name), (.own, parameter.inputName), (.quoted, parameter.name),
          (.quoted, parameter.type)]
  | _ => []

/-- The same with those of the nodes inside. -/
def roles (node : Node) : List (Role × String) :=
  node.ownRoles ++ node.parts.attach.flatMap fun ⟨part, _⟩ => part.roles
termination_by sizeOf node
decreasing_by exact sizeOf_part (by assumption)

theorem mem_roles {node : Node} {entry : Role × String} :
    entry ∈ node.roles ↔ entry ∈ node.ownRoles ∨ ∃ part ∈ node.parts, entry ∈ part.roles := by
  rw [roles, List.mem_append, List.mem_flatMap]
  simp

/-- The strings of the node have their roles. -/
def Casts (R : Role → String → Prop) (node : Node) : Prop :=
  ∀ role text, (role, text) ∈ node.roles → R role text

namespace Casts

variable {R : Role → String → Prop} {node : Node}

theorem own (h : node.Casts R) {role : Role} {text : String} (hmem : (role, text) ∈ node.ownRoles) :
    R role text :=
  h role text (mem_roles.mpr (.inl hmem))

theorem part (h : node.Casts R) {part : Node} (hmem : part ∈ node.parts) : part.Casts R :=
  fun role text htext => h role text (mem_roles.mpr (.inr ⟨part, hmem, htext⟩))

end Casts

/-- Where the roles do not matter, every node has them. -/
theorem casts_true (node : Node) : node.Casts fun _ _ => True :=
  fun _ _ _ => trivial

end Node

end ShaderScript
