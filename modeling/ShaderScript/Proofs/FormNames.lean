import Mathlib.Data.Option.Basic
import Mathlib.Tactic.SplitIfs
import Mathlib.Tactic.Tauto
import ShaderScript.Proofs.Emission
import ShaderScript.Proofs.MarkedText

/-!
# The names in the forms of text

Text is put together from a few forms: calls, methods, blocks, the statements with bodies. For each
form, the names that are marked in its parts are marked in the whole, in the same order, together
with the name that the form adds; and the notes of the fragment have all of them.
-/

namespace ShaderScript

/-! ## Names that are noted -/

/-- The name is mentioned, or it is required and has no point in it. -/
def Noted (notes : List Note) (name : String) : Prop :=
  .mention name ∈ notes ∨ .require name ∈ notes ∧ '.' ∉ name.toList

@[simp, grind =]
theorem noted_append (notes others : List Note) (name : String) :
    Noted (notes ++ others) name ↔ Noted notes name ∨ Noted others name := by
  simp only [Noted, List.mem_append]
  tauto

@[simp, grind =]
theorem noted_mention (mentioned name : String) :
    Noted [.mention mentioned] name ↔ name = mentioned := by
  simp [Noted]

theorem noted_require {name : String} (h : '.' ∉ name.toList) : Noted [.require name] name :=
  .inr ⟨List.mem_cons_self, h⟩

theorem noted_flatMap {α : Type} {items : List α} {item : α} {notes : α → List Note} {name : String}
    (hi : item ∈ items) (h : Noted (notes item) name) : Noted (items.flatMap notes) name := by
  obtain hm | ⟨hr, hp⟩ := h
  · exact .inl (List.mem_flatMap.mpr ⟨item, hi, hm⟩)
  · exact .inr ⟨List.mem_flatMap.mpr ⟨item, hi, hr⟩, hp⟩

/-- The names are those of the text of the fragment, and its notes have all of them. -/
structure Records (R : Role → String → Prop) (names : List String) (fragment : Fragment) :
    Prop where
  marked : Marked R names fragment.text
  noted : ∀ name ∈ names, Noted fragment.notes name

/-- The same for a part that may be absent. -/
inductive RecordsOptional (R : Role → String → Prop) : List String → Option Fragment → Prop
  | none : RecordsOptional R [] none
  | some {names : List String} {fragment : Fragment} (h : Records R names fragment) :
    RecordsOptional R names (some fragment)

section Optional

variable {R : Role → String → Prop} {names : List String} {part : Option Fragment}

theorem RecordsOptional.noted (h : RecordsOptional R names part) :
    ∀ name ∈ names, Noted ((part.map Fragment.notes).getD []) name := by
  cases h with
  | none => nofun
  | some h => exact h.noted

theorem RecordsOptional.marked {other : String} (h : RecordsOptional R names part)
    (ho : Marked R [] other) : Marked R names ((part.map Fragment.text).getD other) := by
  cases h with
  | none => exact ho
  | some h => exact h.marked

end Optional

theorem forall₂_map {α β γ : Type} {R : β → γ → Prop} {f : α → β} {g : α → γ} {items : List α}
    (h : ∀ item ∈ items, R (f item) (g item)) : List.Forall₂ R (items.map f) (items.map g) := by
  rw [List.forall₂_map_left_iff, List.forall₂_map_right_iff, List.forall₂_same]
  exact h

/-! ## Forms -/

/-- The arguments that a sampling chain is built from, if there are enough of them. -/
def SampleModifier.used? {α : Type} : SampleModifier → List α → Option (List α)
  | .optionalBias, [resource, coordinate] => some [resource, coordinate]
  | .optionalBias, resource :: coordinate :: bias :: _ => some [resource, coordinate, bias]
  | .level, resource :: coordinate :: detail :: _ => some [resource, coordinate, detail]
  | .grad, resource :: coordinate :: dx :: dy :: _ => some [resource, coordinate, dx, dy]
  | .noInterpolation, resource :: coordinate :: _ => some [resource, coordinate]
  | _, _ => none

/-- The arguments that stand in the chain of a call, if the call becomes one. -/
def chainArgs? {α : Type} (name : String) (args : List α) : Option (List α) :=
  (SamplingCall.ofName? name).bind fun call => call.modifier.used? args

/-- The constructor in the value of a uniform. -/
def uniformConstructor (reference : Bool) (type : String) : String :=
  if reference then "reference" else ((Form.resource? type).map Prod.fst).getD "uniform"

/-- The names of one arm of a switch. -/
def Arm.names : Arm (List String) (List String) → List String
  | .cases labels body _ => labels.flatten ++ body.getD []
  | .default body => body.getD []

section Forms

variable {R : Role → String → Prop} {names lefts rights : List String}
  {condition left right : Fragment} {parts : List (List String)} {fragments : List Fragment}

theorem marked_texts (h : List.Forall₂ (Records R) parts fragments) :
    List.Forall₂ (Marked R) parts (Fragment.texts fragments) := by
  rw [Fragment.texts, List.forall₂_map_right_iff]
  exact h.imp fun _ _ hrecords => hrecords.marked

theorem noted_allNotes (h : List.Forall₂ (Records R) parts fragments) :
    ∀ name ∈ parts.flatten, Noted (Fragment.allNotes fragments) name := by
  induction h with
  | nil => nofun
  | cons hfirst hrest ih =>
    have hn := hfirst.noted
    grind [Fragment.allNotes]

theorem marked_unknownStatement : Marked R [] Script.unknownStatement :=
  .comment (by decide)

theorem records_number {value : String} (kind : NumberKind) (h : R .number value) :
    Records R (if kind.isNarrow then [kind.spelling] else []) (Form.number value kind) := by
  have hvalue : Marked R [] value := .number h
  unfold Form.number Script.orUnknown
  split_ifs
  · exact ⟨Marked.apply _ (.cons hvalue .nil), by simp [Noted]⟩
  · exact ⟨marked_unknownStatement, by simp⟩
  · exact ⟨hvalue, by simp⟩

theorem records_accessor (property : String) :
    Records R (if property.isEmpty then [] else [property]) (Form.accessor property) := by
  unfold Form.accessor Script.orUnknown
  split_ifs
  · exact ⟨marked_unknownStatement, by simp⟩
  · exact ⟨.name property, by simp [Noted]⟩

theorem marked_binarySpelling (op : BinaryOp) : Marked R [] op.spelling :=
  .signs _ (by cases op <;> decide)

theorem marked_unarySpelling (op : UnaryOp) : Marked R [] op.spelling :=
  .signs _ (by cases op <;> decide)

theorem mem_methods_binary (op : BinaryOp) : op.method ∈ Script.methods := by
  cases op <;> decide

theorem mem_methods_unary {op : UnaryOp} {trailing initializing : Bool} {name : String}
    (h : Form.unaryMethod? op trailing initializing = some name) : name ∈ Script.methods := by
  have hall : ∀ name ∈ Form.unaryMethod? op trailing initializing, name ∈ Script.methods := by
    cases op <;> cases trailing <;> cases initializing <;> decide
  exact hall name h

theorem records_binary (op : BinaryOp) (hl : Records R lefts left) (hr : Records R rights right) :
    Records R
      ((if startsLiteral left.text && !startsLiteral right.text then [op.method] else []) ++
        lefts ++ rights) (Form.binary op left right) := by
  have hnl := hl.noted
  have hnr := hr.noted
  have hblank : Marked R [] " " := .signs _ (by decide)
  unfold Form.binary
  by_cases hleft : startsLiteral left.text
  · by_cases hright : startsLiteral right.text
    · simp only [hleft, hright, Bool.and_true, Bool.not_true, Bool.and_false, Bool.false_eq_true,
        ↓reduceIte, List.nil_append]
      have hspelled := ((hl.marked.after hblank).after (marked_binarySpelling op)).after hblank
      exact ⟨hspelled.append hr.marked, by grind⟩
    · simp only [hleft, hright, Bool.and_false, Bool.not_false, Bool.and_true, Bool.false_eq_true,
        ↓reduceIte]
      have happly := Marked.apply op.method (.cons hl.marked (.cons hr.marked .nil))
      exact ⟨by simpa using happly, by grind⟩
  · simp only [hleft, Bool.false_and, Bool.false_eq_true, ↓reduceIte, List.nil_append]
    split_ifs
    · exact ⟨(hl.marked.after (.signs _ (by decide))).append hr.marked, by grind⟩
    · have hmethod := hl.marked.methodCall (mem_methods_binary op) (.cons hr.marked .nil)
      exact ⟨by simpa using hmethod, by grind⟩

theorem records_signedNumber (op : UnaryOp) {value : String} (kind : NumberKind)
    (h : R .number value) : Records R [kind.spelling] (Form.signedNumber op value kind) := by
  have hsigned := ((marked_unarySpelling op).after (.signs " " (by decide))).before
    (Marked.number h)
  exact ⟨Marked.apply _ (.cons hsigned .nil), by simp [Form.signedNumber]⟩

theorem records_unary (op : UnaryOp) (trailing initializing : Bool) (h : Records R names left) :
    Records R
      ((if startsLiteral left.text then (Form.unaryMethod? op trailing initializing).toList
        else []) ++ names) (Form.unary op trailing initializing left) := by
  have hn := h.noted
  unfold Form.unary
  cases hmethod : Form.unaryMethod? op trailing initializing with
  | none => simpa using h
  | some name =>
    by_cases hlit : startsLiteral left.text
    · simp only [hlit, ↓reduceIte, Option.toList_some]
      have happly := Marked.apply name (.cons h.marked .nil)
      exact ⟨by simpa using happly, by grind⟩
    · simp only [hlit, Bool.false_eq_true, ↓reduceIte, List.nil_append]
      have hcall := h.marked.methodCall (mem_methods_unary hmethod) .nil
      exact ⟨by simpa using hcall, hn⟩

theorem records_ternary (h : Records R names condition) (hl : Records R lefts left)
    (hr : Records R rights right) :
    Records R ("select" :: (names ++ lefts ++ rights)) (Form.ternary condition left right) := by
  have hn := h.noted
  have hnl := hl.noted
  have hnr := hr.noted
  have happly := Marked.apply "select" (.cons h.marked (.cons hl.marked (.cons hr.marked .nil)))
  exact ⟨by simpa [Form.ternary] using happly, by grind [Form.ternary]⟩

/-! ### Calls -/

/-- The chain of a call has the names of the arguments that it is built from. -/
theorem marked_sampleChain (name : String) {parts : List (List String)} {texts : List String}
    (h : List.Forall₂ (Marked R) parts texts) :
    (sampleChain? name texts = none ∧ chainArgs? name parts = none) ∨
      ∃ chain used, sampleChain? name texts = some chain ∧ chainArgs? name parts = some used ∧
        used ⊆ parts ∧ Marked R used.flatten chain := by
  unfold sampleChain? chainArgs?
  cases SamplingCall.ofName? name with
  | none => exact .inl ⟨rfl, rfl⟩
  | some call =>
    simp only [Option.bind_eq_bind, Option.bind_some]
    generalize call.modifier = modifier
    rcases h with _ | ⟨ha, _ | ⟨hb, h⟩⟩
    · left; cases modifier <;> exact ⟨rfl, rfl⟩
    · left; cases modifier <;> exact ⟨rfl, rfl⟩
    · have hsample := ha.methodCall (by decide : "sample" ∈ Script.methods) (.cons hb .nil)
      cases modifier with
      | optionalBias =>
        right
        rcases h with _ | ⟨hc, h⟩
        · exact ⟨_, _, rfl, rfl, by simp, by simpa using hsample⟩
        · have hbias := hsample.methodCall (by decide : "bias" ∈ Script.methods) (.cons hc .nil)
          exact ⟨_, _, rfl, rfl, by simp, by simpa using hbias⟩
      | level =>
        rcases h with _ | ⟨hc, h⟩
        · exact .inl ⟨rfl, rfl⟩
        · right
          have hlevel := hsample.methodCall (by decide : "level" ∈ Script.methods) (.cons hc .nil)
          exact ⟨_, _, rfl, rfl, by simp, by simpa using hlevel⟩
      | grad =>
        rcases h with _ | ⟨hc, _ | ⟨hd, h⟩⟩
        · exact .inl ⟨rfl, rfl⟩
        · exact .inl ⟨rfl, rfl⟩
        · right
          have hgrad := hsample.methodCall (by decide : "grad" ∈ Script.methods)
            (.cons hc (.cons hd .nil))
          exact ⟨_, _, rfl, rfl, by simp, by simpa using hgrad⟩
      | noInterpolation =>
        right
        have hfalse : Marked R [] "false" := .word (by decide)
        have hfetch := hsample.methodCall (by decide : "setSampler" ∈ Script.methods)
          (.cons hfalse .nil)
        exact ⟨_, _, rfl, rfl, by simp, by simpa using hfetch⟩

theorem records_call (name : String) (h : List.Forall₂ (Records R) parts fragments) :
    Records R
      (match chainArgs? name parts with
        | some used => used.flatten
        | none => name :: parts.flatten) (Form.call name fragments) := by
  have hn := noted_allNotes h
  unfold Form.call
  obtain ⟨hchain, hargs⟩ | ⟨chain, used, hchain, hargs, hsub, hmarked⟩ :=
    marked_sampleChain name (marked_texts h)
  · rw [hchain, hargs]
    exact ⟨Marked.apply name (marked_texts h), by grind⟩
  · rw [hchain, hargs]
    refine ⟨hmarked, fun other ho => hn other ?_⟩
    obtain ⟨part, hp, ho⟩ := List.mem_flatten.mp ho
    exact List.mem_flatten.mpr ⟨part, hsub hp, ho⟩

theorem records_member (h : Records R names left) : Records R names (Form.link (.member left)) :=
  ⟨(Marked.signs _ (by decide)).before h.marked, h.noted⟩

theorem records_index (h : Records R names left) : Records R names (Form.link (.index left)) := by
  have hargs : List.Forall₂ (Marked R) [names] [left.text] := .cons h.marked .nil
  have hjoin : Marked R names (Script.bracketed [left.text]) := by
    simpa using Marked.bracketed hargs
  have helement : Marked R names ("." ++ Script.apply "element" [left.text]) := by
    simpa using Marked.link (by decide) hargs
  simp only [Form.link]
  split_ifs
  · exact ⟨hjoin, h.noted⟩
  · exact ⟨helement, h.noted⟩

theorem records_chain (h : Records R names left)
    (hlinks : List.Forall₂ (Records R) parts fragments) :
    Records R (names ++ parts.flatten) (Form.chain left fragments) := by
  have hn := h.noted
  have hnl := noted_allNotes hlinks
  exact ⟨h.marked.append (Marked.joined (marked_texts hlinks)), by grind [Form.chain]⟩

theorem marked_return : Marked R [] "return " := by
  rw [show "return " = "return" ++ " " by decide]
  exact .spaced (by decide)

theorem marked_const : Marked R [] "const " := by
  rw [show "const " = "const" ++ " " by decide]
  exact .spaced (by decide)

theorem records_returned {part : Option Fragment} (h : RecordsOptional R names part) :
    Records R names (Form.returned part) := by
  cases h with
  | none => exact ⟨.word (by decide), nofun⟩
  | some h => exact ⟨marked_return.before h.marked, h.noted⟩

theorem records_control (name : String) : Records R [name] (Form.control name) :=
  ⟨Marked.apply name .nil, by simp [Form.control]⟩

/-! ### Declarations -/

/-- The type of a variable is noted by the declaration it belongs to, not by its binding. -/
theorem marked_binding {name : String} (type : String) {part : Option Fragment}
    (isConverted mutable : Bool) (hname : R .own name) (h : RecordsOptional R names part)
    (hconverted : isConverted → part.isSome) :
    Marked R ((if isConverted then [] else [type]) ++ names)
      (Form.binding name type part isConverted mutable).text := by
  have hfinish : Marked R [] (if mutable then ".toVar()" else "") := by
    cases mutable with
    | false => exact .empty
    | true =>
      rw [show ".toVar()" = "." ++ Script.apply "toVar" [] by decide]
      exact Marked.link (by decide) .nil
  refine Marked.after ((Marked.binding hname).before ?_) hfinish
  cases h with
  | none =>
    obtain rfl : isConverted = false := by simpa using hconverted
    exact Marked.apply type .nil
  | some h =>
    cases isConverted with
    | true => simpa using h.marked
    | false => simpa using Marked.apply type (.cons h.marked .nil)

theorem notes_binding (name type : String) (part : Option Fragment) (isConverted mutable : Bool) :
    (Form.binding name type part isConverted mutable).notes =
      (part.map Fragment.notes).getD [] := by
  cases part <;> cases isConverted <;> rfl

theorem records_bindings {types : List String}
    (hmarked : List.Forall₂ (Marked R) parts (Fragment.texts fragments))
    (hnoted : ∀ name ∈ parts.flatten, name ∈ types ∨ Noted (Fragment.allNotes fragments) name) :
    Records R parts.flatten (Form.bindings fragments types) := by
  refine ⟨marked_const.before (Marked.join hmarked), fun name hname => ?_⟩
  obtain htype | hnote := hnoted name hname
  · left
    simp [Form.bindings, htype]
  · grind [Form.bindings]

theorem resource?_comment {type constructor className : String}
    (h : Form.resource? type = some (constructor, className)) :
    "/* <" ++ className ++ "> */" ∈ Script.comments := by
  unfold Form.resource? at h
  split_ifs at h <;> cases h <;> decide

theorem records_uniformValue (reference : Bool) {name type : String} (hname : R .quoted name)
    (htype : R .quoted type) :
    Records R [uniformConstructor reference type] (Form.uniformValue reference name type) := by
  have hquoted : Marked R [] (Script.literal type) := .quoted (.inr htype)
  unfold uniformConstructor Form.uniformValue
  split
  · have hvalue : Marked R [] (Script.literal "value") := .quoted (.inl rfl)
    have hlist : Marked R [] (Script.bracketed [Script.literal name]) :=
      Marked.bracketed (.cons (.quoted (.inr hname)) .nil)
    have hstore := (Marked.word (by decide : "uniforms" ∈ Script.words)).before hlist
    exact ⟨Marked.apply "reference" (.cons hvalue (.cons hquoted (.cons hstore .nil))),
      by simp [Noted]⟩
  · cases hresource : Form.resource? type with
    | none => exact ⟨Marked.apply "uniform" (.cons hquoted .nil), by simp [Noted]⟩
    | some resource =>
      exact ⟨Marked.apply resource.1 (.cons (.comment (resource?_comment hresource)) .nil),
        by simp [Noted]⟩

theorem records_uniform (reference : Bool) {name type : String} (hown : R .own name)
    (hname : R .quoted name) (htype : R .quoted type) :
    Records R [uniformConstructor reference type] (Form.uniform reference name type) := by
  have hvalue := records_uniformValue reference hname htype
  have hn := hvalue.noted
  refine ⟨?_, by grind [Form.uniform, Noted]⟩
  have hall := (marked_const.before (.binding hown)).before hvalue.marked
  simpa only [Form.uniform, String.append_assoc] using hall

theorem records_varying {name : String} (type : String) (hown : R .own name)
    (hname : R .quoted name) : Records R ["varying", type] (Form.varying name type) := by
  have happly := Marked.apply "varying"
    (.cons (Marked.apply type .nil) (.cons (Marked.quoted (.inr hname)) .nil))
  refine ⟨?_, by simp [Form.varying, Noted]⟩
  have hall := (marked_const.before (.binding hown)).before happly
  simpa [Form.varying, String.append_assoc] using hall

/-! ### Statements with bodies -/

theorem marked_gap (previous : Option Node) (node : Node) : Marked R [] (Body.gap previous node) := by
  unfold Body.gap
  split
  · exact .empty
  · exact .signs _ (by decide)
  · split_ifs
    · exact .empty
    · exact .signs _ (by decide)

theorem marked_terminator (text : String) : Marked R [] (Body.terminator text) := by
  unfold Body.terminator
  split_ifs
  · exact .empty
  · exact .signs _ (by decide)

theorem marked_lines (depth : Nat) (previous : Option Node) {nodes : List Node}
    {f : Node → List String} {g : Node → Fragment}
    (h : ∀ node ∈ nodes, Records R (f node) (g node)) :
    List.Forall₂ (Marked R) (nodes.map f)
      (Body.lines depth previous (nodes.map fun node => (node, g node))) := by
  induction nodes generalizing previous with
  | nil => exact .nil
  | cons node nodes ih =>
    have hnode := h node List.mem_cons_self
    have hline := (((marked_gap previous node).after (.tabs depth)).before hnode.marked).after
      (marked_terminator (g node).text)
    exact .cons hline (ih (some node) fun other ho => h other (List.mem_cons_of_mem _ ho))

theorem records_body {context : Context} {nodes : List Node} {f : Node → List String}
    (h : ∀ node ∈ nodes, Records R (f node) (emit context node)) :
    Records R ((Body.kept context.inCase nodes).flatMap f) (emitBody context nodes) := by
  have hkept : ∀ node ∈ Body.kept context.inCase nodes, Records R (f node) (emit context node) :=
    fun node hn => h node (List.mem_of_mem_filter hn)
  have hmarked := Marked.intercalate (.signs "\n" (by decide))
    (marked_lines context.depth none hkept)
  refine ⟨?_, ?_⟩
  · rw [emitBody, Body.ofFragments, Body.assemble_map, List.flatMap_def]
    exact hmarked
  · intro name hname
    obtain ⟨node, hnode, hname⟩ := List.mem_flatMap.mp hname
    have hnoted := (hkept node hnode).noted name hname
    rw [notes_emitBody]
    exact noted_flatMap hnode hnoted

variable {bodies : List String} {body : Fragment} {part : Option Fragment}

theorem records_alternate (depth : Nat) (h : RecordsOptional R names part)
    (hbody : Records R bodies body) :
    Records R (names ++ bodies) (Form.alternate depth (part, body)) := by
  have hthunk := hbody.marked.thunk depth
  have hnb := hbody.noted
  cases h with
  | none =>
    have hlink := Marked.link (by decide : "Else" ∈ Script.methods) (.cons hthunk .nil)
    exact ⟨by simpa [Form.alternate] using hlink, hnb⟩
  | some h =>
    have hn := h.noted
    have hlink := Marked.link (by decide : "ElseIf" ∈ Script.methods)
      (.cons h.marked (.cons hthunk .nil))
    exact ⟨by simpa [Form.alternate] using hlink, by grind [Form.alternate]⟩

theorem records_conditional (depth : Nat) {alternates : List (Option Fragment × Fragment)}
    (h : Records R names condition) (hbody : Records R bodies body)
    (hlinks : List.Forall₂ (Records R) parts (alternates.map (Form.alternate depth))) :
    Records R ("If" :: (names ++ bodies ++ parts.flatten))
      (Form.conditional depth condition body alternates) := by
  have hif := Marked.apply "If" (.cons h.marked (.cons (hbody.marked.thunk depth) .nil))
  have hall := hif.append (Marked.joined (marked_texts hlinks))
  have hn := h.noted
  have hnb := hbody.noted
  have hnl := noted_allNotes hlinks
  have hrequire : Noted [.require "If"] "If" := noted_require (by decide)
  exact ⟨by simpa [Form.conditional] using hall, by grind [Form.conditional]⟩

/-- The names of an arm, from those of its labels and of its body. -/
theorem records_arm (depth : Nat) (arm : Arm Node (List Node)) {f : Node → List String}
    {g : Node → Fragment} {fs : List Node → List String} {gs : List Node → Fragment}
    (hlabels : ∀ label ∈ arm.labels, Records R (f label) (g label))
    (hbody : ∀ nodes, arm.body? = some nodes → Records R (fs nodes) (gs nodes)) :
    Records R (arm.map f fs).names (Form.arm depth (arm.map g gs)) := by
  have hoptional : RecordsOptional R ((arm.body?.map fs).getD []) (arm.body?.map gs) := by
    cases hnodes : arm.body? with
    | none => exact .none
    | some nodes => exact .some (hbody nodes hnodes)
  have hnb := hoptional.noted
  have hthunk := (hoptional.marked .empty).thunk depth
  cases arm with
  | cases labels nodes closed =>
    have hall : List.Forall₂ (Records R) (labels.map f) (labels.map g) := forall₂_map hlabels
    have hnl := noted_allNotes hall
    have hargs := List.rel_append (marked_texts hall) (.cons hthunk .nil)
    have hcase := Marked.link (by decide : "Case" ∈ Script.methods) hargs
    refine ⟨by simpa [Arm.names, Arm.map, Arm.body?, Form.arm] using hcase, ?_⟩
    simp only [Arm.names, Arm.map, Form.arm, Arm.body?] at hnb ⊢
    grind
  | default nodes =>
    have hdefault := Marked.link (by decide : "Default" ∈ Script.methods) (.cons hthunk .nil)
    exact ⟨by simpa [Arm.names, Arm.map, Arm.body?, Form.arm] using hdefault, hnb⟩

theorem records_switch (depth : Nat) {cases : List (Option Fragment × Option Fragment)}
    (h : Records R names condition)
    (harms : List.Forall₂ (Records R) parts ((Arm.group [] cases).map (Form.arm (depth + 1)))) :
    Records R ("Switch" :: (names ++ parts.flatten)) (Form.switch depth condition cases) := by
  have hline : Marked R [] "\n" := .signs _ (by decide)
  have hswitch := ((Marked.apply "Switch" (.cons h.marked .nil)).after hline).after
    (.tabs (depth + 1))
  have hall := hswitch.append (Marked.joined (marked_texts harms))
  have hn := h.noted
  have hna := noted_allNotes harms
  have hrequire : Noted [.require "Switch"] "Switch" := noted_require (by decide)
  exact ⟨by simpa [Form.switch] using hall, by grind [Form.switch]⟩

/-! ### Loops -/

theorem marked_updateEntry {counter : String} {update : Update Fragment} (hcounter : R .own counter)
    (h : RecordsOptional R names update.operand?) :
    ∃ parts, List.Forall₂ (Marked R) parts
        (Counting.updateEntry counter (update.map Fragment.text)) ∧ parts.flatten = names := by
  have hkey : "update" ∈ Script.keys ∨ R .own "update" := .inl (by decide)
  cases update with
  | increment => cases h with
    | none => exact ⟨[], .nil, rfl⟩
  | decrement => cases h with
    | none =>
      have hsigns : Marked R [] (Script.literal UnaryOp.decrement.spelling) := .signs _ (by decide)
      exact ⟨[[]], .cons (hsigns.entry hkey) .nil, rfl⟩
  | step amount => cases h with
    | some h => exact ⟨[names], .cons (h.marked.entry hkey) .nil, by simp⟩
  | assign assignment => cases h with
    | some h =>
      have hparameter := ((Marked.signs "( " (by decide)).before (Marked.pattern hcounter)).after
        (.signs " ) => " (by decide))
      exact ⟨[names], .cons ((hparameter.before h.marked).entry hkey) .nil, by simp⟩

/-- Of the entries of a configuration, those for the start, the end and the update have names. -/
theorem marked_config {starts limits updates : List String} {counting : Counting Fragment}
    (hown : R .own counting.name) (hname : R .quoted counting.name)
    (htype : R .quoted counting.type) (hstart : Records R starts counting.start)
    (hlimit : Records R limits counting.limit)
    (hupdate : RecordsOptional R updates counting.update.operand?) :
    Marked R (starts ++ limits ++ updates)
      (Script.braced (counting.map Fragment.text).config) := by
  obtain ⟨parts, hparts, hflatten⟩ := marked_updateEntry hown hupdate
  have hends : List.Forall₂ (Marked R) [starts, limits]
      [Script.entry "start" counting.start.text, Script.entry "end" counting.limit.text] :=
    .cons (hstart.marked.entry (.inl (by decide)))
      (.cons (hlimit.marked.entry (.inl (by decide))) .nil)
  have hcounter : Marked R [] (Script.entry "name" (Script.literal counting.name)) :=
    Marked.entry (.inl (by decide)) (.quoted (.inr hname))
  have hkind : Marked R [] (Script.entry "type" (Script.literal counting.type)) :=
    Marked.entry (.inl (by decide)) (.quoted (.inr htype))
  have hcomparison : Marked R []
      (Script.entry "condition" (Script.literal counting.comparison.spelling)) :=
    Marked.entry (.inl (by decide)) (.signs _ (by cases counting.comparison <;> decide))
  have hentries : List.Forall₂ (Marked R) _ (counting.map Fragment.text).config :=
    List.rel_append (List.rel_append (List.rel_append (List.rel_append hends
      (Marked.optional _ hcounter)) (Marked.optional _ hkind)) (Marked.optional _ hcomparison)) hparts
  simpa [hflatten] using Marked.braced hentries

theorem records_countingLoop (depth : Nat) {starts limits updates : List String}
    {counting : Counting Fragment} (hown : R .own counting.name)
    (hname : R .quoted counting.name) (htype : R .quoted counting.type)
    (hstart : Records R starts counting.start) (hlimit : Records R limits counting.limit)
    (hupdate : RecordsOptional R updates counting.update.operand?)
    (hbody : Records R bodies body) :
    Records R ("Loop" :: (starts ++ limits ++ updates ++ bodies))
      (Form.countingLoop depth counting body) := by
  have hparameter := ((Marked.signs "( " (by decide)).before (Marked.pattern hown)).after
    (.signs " )" (by decide))
  have hcallback := Marked.callback hparameter depth hbody.marked
  have happly := Marked.apply "Loop"
    (.cons (marked_config hown hname htype hstart hlimit hupdate) (.cons hcallback .nil))
  have hns := hstart.noted
  have hnl := hlimit.noted
  have hnu := hupdate.noted
  have hnb := hbody.noted
  have hrequire : Noted [.require "Loop"] "Loop" := noted_require (by decide)
  refine ⟨?_, by grind [Form.countingLoop]⟩
  simpa [Form.countingLoop, Counting.text, Counting.map] using happly

theorem records_generalLoop (depth : Nat) {setups tests finishes : List String}
    {initial test afterthought : Option Fragment} (hinitial : RecordsOptional R setups initial)
    (htest : RecordsOptional R tests test) (hafterthought : RecordsOptional R finishes afterthought)
    (hbody : Records R bodies body) :
    Records R (setups ++ "Loop" :: (tests ++ bodies ++ finishes))
      (Form.generalLoop depth initial test afterthought body) := by
  have hni := hinitial.noted
  have hnt := htest.noted
  have hna := hafterthought.noted
  have hnb := hbody.noted
  have hrequire : Noted [.require "Loop"] "Loop" := noted_require (by decide)
  have hend : Marked R [] ";\n\n" := .signs _ (by decide)
  refine ⟨?_, by simp only [Form.generalLoop]; grind⟩
  unfold Form.generalLoop
  dsimp only
  refine Marked.block depth (Marked.append (Marked.after ?_ (.tabs _)) ?_)
  · cases hinitial with
    | none => exact .empty
    | some h => exact ((Marked.tabs _).before h.marked).after hend
  · have happly (finish : String) (hfinish : Marked R finishes finish) :=
      Marked.apply "Loop" (.cons (htest.marked (.word (by decide : "true" ∈ Script.words)))
        (.cons ((hbody.marked.append hfinish).thunk (depth + 1)) .nil))
    cases hafterthought with
    | none => simpa using happly _ .empty
    | some h =>
      have hlines : Marked R [] "\n\n" := .signs _ (by decide)
      have hsemicolon : Marked R [] ";" := .signs _ (by decide)
      simpa using happly _ (((hlines.after (.tabs _)).before h.marked).after hsemicolon)

end Forms

end ShaderScript
