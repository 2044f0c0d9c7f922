import ShaderScript.Proofs.FormNames
import ShaderScript.Proofs.Sheets
import ShaderScript.Proofs.Traces

/-!
# Fragments that are laid out

A fragment is drawn if its text is a sheet and its notes are the same for every view, except in two
places: how a uniform gets its value is noted with the uniform, and the labels of cases that no body
follows are reported as they are emitted. Every form of fragment is drawn as soon as its parts are.
-/

namespace ShaderScript

open Script

/-- The notes are known for every view: they do not depend on it, apart from those of uniforms of
the given kind, and from the labels of unterminated cases, which are laid out and have no other
uniforms. -/
inductive Taken (P : String → Prop) (U : String × String → Prop) : (View → List Note) → Prop
  | fixed (notes : List Note) : Taken P U fun _ => notes
  | uniform {name type : String} (h : U (name, type)) :
    Taken P U fun view => (Form.uniform view.reference name type).notes
  | unterminated {parts : List (List (String × String))} {labels : List (View → String)}
    (h : List.Forall₂ (Laid P) parts labels) (huniforms : ∀ pair ∈ parts.flatten, U pair) :
    Taken P U fun view => [.report (.unterminatedCases (labels.map (· view)))]
  | append {notes others : View → List Note} (h : Taken P U notes) (hothers : Taken P U others) :
    Taken P U fun view => notes view ++ others view

/-- The text of the fragment is laid out with these uniforms, and its notes are known. -/
structure Drawn (P : String → Prop) (U : String × String → Prop)
    (uniforms : List (String × String)) (fragment : View → Fragment) : Prop where
  text : Laid P uniforms fun view => (fragment view).text
  notes : Taken P U fun view => (fragment view).notes

/-- The same for a part that may be absent. -/
inductive DrawnOptional (P : String → Prop) (U : String × String → Prop) :
    List (String × String) → Option (View → Fragment) → Prop
  | none : DrawnOptional P U [] none
  | some {uniforms : List (String × String)} {fragment : View → Fragment}
    (h : Drawn P U uniforms fragment) : DrawnOptional P U uniforms (some fragment)

/-- The same for a body. -/
structure DrawnBody (P : String → Prop) (U : String × String → Prop)
    (uniforms : List (String × String)) (fragment : View → Fragment) : Prop where
  text : Filled P uniforms fun view => (fragment view).text
  notes : Taken P U fun view => (fragment view).notes

section Forms

variable {P : String → Prop} {U : String × String → Prop}
  {uniforms lefts rights bodies : List (String × String)}
  {condition left right body : View → Fragment} {parts : List (List (String × String))}
  {fragments : List (View → Fragment)} {part : Option (View → Fragment)}

theorem laid_texts (h : List.Forall₂ (Drawn P U) parts fragments) :
    List.Forall₂ (Laid P) parts (fragments.map fun fragment view => (fragment view).text) := by
  rw [List.forall₂_map_right_iff]
  exact h.imp fun _ _ hdrawn => hdrawn.text

theorem texts_map (fragments : List (View → Fragment)) (view : View) :
    (fragments.map fun fragment view => (fragment view).text).map (· view) =
      Fragment.texts (fragments.map (· view)) := by
  simp [Fragment.texts]

theorem taken_allNotes (h : List.Forall₂ (Drawn P U) parts fragments) :
    Taken P U fun view => Fragment.allNotes (fragments.map (· view)) := by
  induction h with
  | nil => exact .fixed []
  | cons hfirst hrest ih => exact hfirst.notes.append ih

theorem DrawnOptional.notes (h : DrawnOptional P U uniforms part) :
    Taken P U fun view => ((part.map (· view)).map Fragment.notes).getD [] := by
  cases h with
  | none => exact .fixed []
  | some h => exact h.notes

/-! ## Expressions -/

theorem drawn_number {value : String} (h : P value) (kind : NumberKind) :
    Drawn P U [] fun _ => Form.number value kind := by
  refine ⟨?_, .fixed _⟩
  unfold Form.number
  split_ifs
  · have hspelling : Unbroken kind.spelling := by cases kind <;> decide
    exact .apply (.fixed hspelling) (.cons (.own (.inr h)) .nil)
  · exact .orUnknown h

theorem drawn_binary (op : BinaryOp) (hleft : Drawn P U lefts left)
    (hright : Drawn P U rights right) :
    Drawn P U (lefts ++ rights) fun view => Form.binary op (left view) (right view) := by
  have hmethod : Unbroken op.method := by cases op <;> decide
  have hspelling : Unbroken op.spelling := by cases op <;> decide
  have hnotes := hleft.notes.append hright.notes
  obtain ⟨leftStarts, hleftStarts⟩ := hleft.text.exists_startsLiteral
  obtain ⟨rightStarts, hrightStarts⟩ := hright.text.exists_startsLiteral
  simp only [Form.binary, hleftStarts, hrightStarts]
  split_ifs
  · exact ⟨(((hleft.text.after (by decide)).after hspelling).after (by decide)).append hright.text,
      hnotes⟩
  · have hcall := Laid.apply (.fixed hmethod) (.cons hleft.text (.cons hright.text .nil))
    exact ⟨by simpa using hcall, hnotes.append (.fixed _)⟩
  · exact ⟨(hleft.text.after (by decide)).append hright.text, hnotes⟩
  · have hcall := hleft.text.method _ hmethod (.cons hright.text .nil)
    exact ⟨by simpa using hcall, hnotes⟩

theorem drawn_signedNumber (op : UnaryOp) {value : String} (h : P value) (kind : NumberKind) :
    Drawn P U [] fun _ => Form.signedNumber op value kind := by
  have hkind : Unbroken kind.spelling := by cases kind <;> decide
  have hop : Unbroken op.spelling := by cases op <;> decide
  have hblank : Unbroken " " := by decide
  have hvalue := ((Laid.fixed hop).after hblank).append (.own (.inr h))
  exact ⟨.apply (.fixed hkind) (.cons hvalue .nil), .fixed _⟩

theorem unbroken_unaryMethod? {op : UnaryOp} {trailing initializing : Bool} {name : String}
    (h : Form.unaryMethod? op trailing initializing = some name) : Unbroken name := by
  cases op <;> cases trailing <;> cases initializing <;> cases h <;> decide

theorem drawn_unary (op : UnaryOp) (trailing initializing : Bool) (h : Drawn P U uniforms left) :
    Drawn P U uniforms fun view => Form.unary op trailing initializing (left view) := by
  obtain ⟨starts, hstarts⟩ := h.text.exists_startsLiteral
  simp only [Form.unary, hstarts]
  cases hmethod : Form.unaryMethod? op trailing initializing with
  | none => exact h
  | some name =>
    have hname := unbroken_unaryMethod? hmethod
    simp only
    split_ifs
    · have hcall := Laid.apply (.fixed hname) (.cons h.text .nil)
      exact ⟨by simpa using hcall, h.notes.append (.fixed _)⟩
    · have hcall := h.text.method _ hname .nil
      exact ⟨by simpa using hcall, h.notes⟩

theorem drawn_ternary (h : Drawn P U uniforms condition) (hleft : Drawn P U lefts left)
    (hright : Drawn P U rights right) :
    Drawn P U (uniforms ++ lefts ++ rights) fun view =>
      Form.ternary (condition view) (left view) (right view) := by
  have hselect : Unbroken "select" := by decide
  have hcall := Laid.apply (.fixed hselect)
    (.cons h.text (.cons hleft.text (.cons hright.text .nil)))
  exact ⟨by simpa [Form.ternary] using hcall,
    ((h.notes.append hleft.notes).append hright.notes).append (.fixed _)⟩

/-- The chain of a call is laid out with the arguments that it is built from. -/
theorem laid_sampleChain (name : String) {texts : List (View → String)}
    (h : List.Forall₂ (Laid P) parts texts) :
    ((∀ view, sampleChain? name (texts.map (· view)) = none) ∧ chainArgs? name parts = none) ∨
      ∃ chain used, (∀ view, sampleChain? name (texts.map (· view)) = some (chain view)) ∧
        chainArgs? name parts = some used ∧ Laid P used.flatten chain := by
  unfold sampleChain? chainArgs?
  cases SamplingCall.ofName? name with
  | none => exact .inl ⟨fun _ => rfl, rfl⟩
  | some call =>
    simp only [Option.bind_eq_bind, Option.bind_some]
    generalize call.modifier = modifier
    rcases h with _ | ⟨ha, _ | ⟨hb, h⟩⟩
    · left; cases modifier <;> exact ⟨fun _ => rfl, rfl⟩
    · left; cases modifier <;> exact ⟨fun _ => rfl, rfl⟩
    · have hsample := ha.method "sample" (by decide) (.cons hb .nil)
      cases modifier with
      | optionalBias =>
        right
        rcases h with _ | ⟨hc, h⟩
        · exact ⟨_, _, fun _ => rfl, rfl, by simpa using hsample⟩
        · have hbias := hsample.method "bias" (by decide) (.cons hc .nil)
          exact ⟨_, _, fun _ => rfl, rfl, by simpa using hbias⟩
      | level =>
        rcases h with _ | ⟨hc, h⟩
        · exact .inl ⟨fun _ => rfl, rfl⟩
        · right
          have hlevel := hsample.method "level" (by decide) (.cons hc .nil)
          exact ⟨_, _, fun _ => rfl, rfl, by simpa using hlevel⟩
      | grad =>
        rcases h with _ | ⟨hc, _ | ⟨hd, h⟩⟩
        · exact .inl ⟨fun _ => rfl, rfl⟩
        · exact .inl ⟨fun _ => rfl, rfl⟩
        · right
          have hgrad := hsample.method "grad" (by decide) (.cons hc (.cons hd .nil))
          exact ⟨_, _, fun _ => rfl, rfl, by simpa using hgrad⟩
      | noInterpolation =>
        right
        have hfalse : Unbroken "false" := by decide
        have hfetch := hsample.method "setSampler" (by decide) (.cons (.fixed hfalse) .nil)
        exact ⟨_, _, fun _ => rfl, rfl, by simpa using hfetch⟩

theorem drawn_call {name : String} (hname : P name) (h : List.Forall₂ (Drawn P U) parts fragments) :
    Drawn P U ((chainArgs? name parts).getD parts).flatten fun view =>
      Form.call name (fragments.map (· view)) := by
  have hnotes := taken_allNotes h
  have htexts := laid_texts h
  simp only [Form.call, ← texts_map]
  obtain ⟨hchain, hargs⟩ | ⟨chain, used, hchain, hargs, hlaid⟩ := laid_sampleChain name htexts
  · simp only [hchain, hargs]
    exact ⟨.apply (.own (.inr hname)) htexts, hnotes.append (.fixed _)⟩
  · simp only [hchain, hargs]
    exact ⟨hlaid, hnotes⟩

theorem drawn_member (h : Drawn P U uniforms left) :
    Drawn P U uniforms fun view => Form.link (.member (left view)) :=
  ⟨h.text.before (by decide), h.notes⟩

theorem drawn_index (h : Drawn P U uniforms left) :
    Drawn P U uniforms fun view => Form.link (.index (left view)) := by
  have helement : Unbroken "element" := by decide
  have hpoint : Unbroken "." := by decide
  have hbracketed := Laid.bracketed (.cons h.text .nil)
  have hcall := (Laid.apply (.fixed helement) (.cons h.text .nil)).before hpoint
  obtain ⟨starts, hstarts⟩ := h.text.exists_startsLiteral
  simp only [Form.link, hstarts]
  split_ifs
  · exact ⟨by simpa using hbracketed, h.notes⟩
  · exact ⟨by simpa using hcall, h.notes⟩

theorem drawn_chain (h : Drawn P U uniforms left)
    (hlinks : List.Forall₂ (Drawn P U) parts fragments) :
    Drawn P U (uniforms ++ parts.flatten) fun view =>
      Form.chain (left view) (fragments.map (· view)) := by
  simp only [Form.chain, ← texts_map]
  exact ⟨h.text.append (.joined (laid_texts hlinks)), h.notes.append (taken_allNotes hlinks)⟩

theorem drawn_returned (h : DrawnOptional P U uniforms part) :
    Drawn P U uniforms fun view => Form.returned (part.map (· view)) := by
  cases h with
  | none => exact ⟨.fixed (by decide), .fixed []⟩
  | some h => exact ⟨h.text.before (by decide), h.notes⟩

/-! ## Declarations -/

theorem drawn_binding {name type : String} (hname : P name) (htype : P type)
    (h : DrawnOptional P U uniforms part) (isConverted mutable : Bool) :
    Drawn P U uniforms fun view =>
      Form.binding name type (part.map (· view)) isConverted mutable := by
  have hfinish : Unbroken (if mutable then ".toVar()" else "") := by cases mutable <;> decide
  have hequals : Unbroken " = " := by decide
  have htext (converted : View → Fragment)
      (hlaid : Laid P uniforms fun view => (converted view).text) :
      Laid P uniforms fun view =>
        name ++ " = " ++ (converted view).text ++ (if mutable then ".toVar()" else "") :=
    (((Laid.own (.inr hname)).after hequals).append hlaid).after hfinish
  cases h with
  | none => exact ⟨htext _ (.apply (.own (.inr htype)) .nil), .fixed []⟩
  | some h =>
    cases isConverted with
    | true => exact ⟨htext _ h.text, h.notes⟩
    | false =>
      have hcall := Laid.apply (.own (.inr htype)) (.cons h.text .nil)
      exact ⟨htext _ (by simpa using hcall), h.notes⟩

theorem drawn_bindings (types : List String) (h : List.Forall₂ (Drawn P U) parts fragments) :
    Drawn P U parts.flatten fun view => Form.bindings (fragments.map (· view)) types := by
  have hconst : Unbroken "const " := by decide
  simp only [Form.bindings, ← texts_map]
  exact ⟨(Laid.intercalate (.fixed (by decide)) (laid_texts h)).before hconst,
    (taken_allNotes h).append (.fixed _)⟩

theorem drawn_uniform {name type : String} (hname : P name) (htype : P type) (h : U (name, type)) :
    Drawn P U [(name, type)] fun view => Form.uniform view.reference name type :=
  ⟨.uniform hname htype, .uniform h⟩

theorem drawn_varying {name type : String} (hname : P name) (htype : P type) :
    Drawn P U [] fun _ => Form.varying name type := by
  have hconst : Unbroken "const " := by decide
  have hequals : Unbroken " = " := by decide
  have hvarying : Unbroken "varying" := by decide
  have hlaid : Laid P [] fun _ => name := .own (.inr hname)
  have hvalue := Laid.apply (.fixed hvarying)
    (.cons (.apply (.own (.inr htype)) .nil) (.cons hlaid.literal .nil))
  exact ⟨((hlaid.before hconst).after hequals).append hvalue, .fixed _⟩

/-! ## Bodies -/

theorem intercalate_cons (separator first : String) (rest : List String) :
    separator.intercalate (first :: rest) = first ++ String.join (rest.map (separator ++ ·)) := by
  induction rest generalizing first with
  | nil => simp
  | cons second rest ih =>
    rw [String.intercalate_cons_cons, ih]
    simp [String.append_assoc]

theorem exists_breaks_gap (previous : Option Node) (node : Node) :
    ∃ blanks, "\n" ++ Body.gap previous node = breaks (blanks + 1) := by
  have hgap : Body.gap previous node = "" ∨ Body.gap previous node = "\n" := by
    unfold Body.gap
    split
    · exact .inl rfl
    · exact .inr rfl
    · split <;> simp
  obtain hgap | hgap := hgap
  · exact ⟨0, by rw [hgap]; rfl⟩
  · exact ⟨1, by rw [hgap]; rfl⟩

/-- The lines of a body after its first, each with the line break before it. -/
theorem laid_lines (depth : Nat) (previous : Node) {nodes : List Node}
    {used : Node → List (String × String)} {f : Node → View → Fragment}
    (h : ∀ node ∈ nodes, Drawn P U (used node) (f node)) :
    Laid P (nodes.flatMap used) fun view =>
      String.join ((Body.lines (view.margin + depth + 1) (some previous)
        (nodes.map fun node => (node, f node view))).map ("\n" ++ ·)) := by
  induction nodes generalizing previous with
  | nil => exact .fixed (by decide)
  | cons node nodes ih =>
    obtain ⟨hnode, hnodes⟩ := List.forall_mem_cons.mp h
    obtain ⟨blanks, hblanks⟩ := exists_breaks_gap (some previous) node
    obtain ⟨finish, hfinish, hterminator⟩ := hnode.text.exists_terminator
    have hline := ((Laid.line blanks depth).append hnode.text).after hfinish
    simpa [Body.lines, hterminator, ← hblanks, String.append_assoc] using
      hline.append (ih node hnodes)

/-- The statements of a body fill a block. -/
theorem filled_lines (depth : Nat) {nodes : List Node} {used : Node → List (String × String)}
    {f : Node → View → Fragment} (h : ∀ node ∈ nodes, Drawn P U (used node) (f node)) :
    Filled P (nodes.flatMap used) fun view =>
      "\n".intercalate (Body.lines (view.margin + depth + 1) none
        (nodes.map fun node => (node, f node view))) := by
  cases nodes with
  | nil => exact .empty fun _ => rfl
  | cons node nodes =>
    obtain ⟨hnode, hnodes⟩ := List.forall_mem_cons.mp h
    obtain ⟨finish, hfinish, hterminator⟩ := hnode.text.exists_terminator
    have hbreaks : "\n\n" = breaks 2 := rfl
    have hline := ((Laid.line 1 depth).append hnode.text).after hfinish
    refine .lines ?_
    simpa [Body.lines, Body.gap, hterminator, intercalate_cons, hbreaks, String.append_assoc] using
      hline.append (laid_lines depth node hnodes)

theorem taken_flatMap {nodes : List Node} {used : Node → List (String × String)}
    {f : Node → View → Fragment} (h : ∀ node ∈ nodes, Drawn P U (used node) (f node)) :
    Taken P U fun view => nodes.flatMap fun node => (f node view).notes := by
  induction nodes with
  | nil => exact .fixed []
  | cons node nodes ih =>
    obtain ⟨hnode, hnodes⟩ := List.forall_mem_cons.mp h
    exact hnode.notes.append (ih hnodes)

namespace Filled

variable {content last : View → String} {lasts : List (String × String)}

/-- A block of one statement. -/
theorem line (depth : Nat) (h : Laid P uniforms content) :
    Filled P uniforms fun view => tabs (view.margin + depth + 1) ++ content view := by
  have hbreaks : "\n\n" = breaks 2 := rfl
  refine .lines ?_
  simpa only [hbreaks, Nat.reduceAdd, List.nil_append, String.append_assoc] using
    (Laid.line 1 depth).append h

/-- One more statement after the content of a block, and an empty line before it. -/
theorem append (depth : Nat) (h : Filled P uniforms content) (hlast : Laid P lasts last) :
    Filled P (uniforms ++ lasts) fun view =>
      content view ++ "\n\n" ++ tabs (view.margin + depth + 1) ++ last view := by
  have hbreaks : "\n\n" = breaks 2 := rfl
  refine .lines ?_
  cases h with
  | empty h =>
    have hfour : breaks 4 = breaks 2 ++ breaks 2 := rfl
    have hline := (Laid.line 3 depth).append hlast
    simpa only [h, hbreaks, hfour, String.empty_append, String.append_assoc] using hline
  | lines h =>
    have hline := (Laid.line 1 depth).append hlast
    simpa only [hbreaks, Nat.reduceAdd, List.nil_append, String.append_assoc] using h.append hline

end Filled

/-! ## Conditionals and switches -/

theorem drawn_alternate (depth : Nat) (h : DrawnOptional P U uniforms part)
    (hbody : DrawnBody P U bodies body) :
    Drawn P U (uniforms ++ bodies) fun view =>
      Form.alternate (view.margin + depth) (part.map (· view), body view) := by
  have hthunk := Laid.thunk depth hbody.text
  have hpoint : Unbroken "." := by decide
  cases h with
  | none =>
    have helse : Unbroken "Else" := by decide
    have hlink := (Laid.apply (.fixed helse) (.cons hthunk .nil)).before hpoint
    exact ⟨by simpa [Form.alternate] using hlink, hbody.notes⟩
  | some h =>
    have helse : Unbroken "ElseIf" := by decide
    have hlink := (Laid.apply (.fixed helse) (.cons h.text (.cons hthunk .nil))).before hpoint
    exact ⟨by simpa [Form.alternate] using hlink, hbody.notes.append h.notes⟩

theorem drawn_conditional (depth : Nat) {alternates : View → List (Option Fragment × Fragment)}
    (h : Drawn P U uniforms condition) (hbody : DrawnBody P U bodies body)
    (hlinks : List.Forall₂ (Drawn P U) parts fragments)
    (hmap : ∀ view, (alternates view).map (Form.alternate (view.margin + depth)) =
      fragments.map (· view)) :
    Drawn P U (uniforms ++ bodies ++ parts.flatten) fun view =>
      Form.conditional (view.margin + depth) (condition view) (body view) (alternates view) := by
  have hif : Unbroken "If" := by decide
  have hcall := Laid.apply (.fixed hif) (.cons h.text (.cons (.thunk depth hbody.text) .nil))
  have hall := hcall.append (.joined (laid_texts hlinks))
  simp only [Form.conditional, hmap, ← texts_map]
  exact ⟨by simpa using hall,
    ((h.notes.append hbody.notes).append (taken_allNotes hlinks)).append (.fixed _)⟩

/-- One arm of a switch, from its labels and its body. -/
theorem drawn_arm (depth : Nat) (arm : Arm (View → Fragment) (View → Fragment))
    (hlabels : List.Forall₂ (Drawn P U) parts arm.labels)
    (huniforms : ∀ pair ∈ parts.flatten, U pair)
    (hbody : DrawnBody P U bodies fun view => (arm.body?.map (· view)).getD (.plain "")) :
    Drawn P U (parts.flatten ++ bodies) fun view =>
      Form.arm (view.margin + depth) (arm.map (· view) (· view)) := by
  have hpoint : Unbroken "." := by decide
  have htext (part : Option Fragment) :
      (part.map Fragment.text).getD "" = (part.getD (.plain "")).text := by
    cases part <;> rfl
  have hnotes (part : Option Fragment) :
      (part.map Fragment.notes).getD [] = (part.getD (.plain "")).notes := by
    cases part <;> rfl
  have hthunk := Laid.thunk depth hbody.text
  cases arm with
  | cases labels nodes closed =>
    have hcase : Unbroken "Case" := by decide
    have htexts := laid_texts hlabels
    have hcall := (Laid.apply (.fixed hcase) (List.rel_append htexts (.cons hthunk .nil))).before
      hpoint
    simp only [Arm.map, Form.arm, htext, hnotes]
    refine ⟨by simpa [Fragment.texts, Arm.labels, Arm.body?, Function.comp_def] using hcall, ?_⟩
    have hreport : Taken P U fun view => if closed then [] else
        [.report (.unterminatedCases (Fragment.texts (labels.map (· view))))] := by
      cases closed with
      | true => exact .fixed []
      | false =>
        simp only [← texts_map]
        exact .unterminated htexts huniforms
    exact ((taken_allNotes hlabels).append hreport).append hbody.notes
  | default nodes =>
    have hdefault : Unbroken "Default" := by decide
    have hcall := (Laid.apply (.fixed hdefault) (.cons hthunk .nil)).before hpoint
    cases hlabels
    simp only [Arm.map, Form.arm, htext, hnotes]
    exact ⟨by simpa [Arm.body?] using hcall, hbody.notes⟩

theorem drawn_switch (depth : Nat) {cases : View → List (Option Fragment × Option Fragment)}
    (h : Drawn P U uniforms condition) (harms : List.Forall₂ (Drawn P U) parts fragments)
    (hmap : ∀ view, (Arm.group [] (cases view)).map (Form.arm (view.margin + depth + 1)) =
      fragments.map (· view)) :
    Drawn P U (uniforms ++ parts.flatten) fun view =>
      Form.switch (view.margin + depth) (condition view) (cases view) := by
  have hswitch : Unbroken "Switch" := by decide
  have hbreak : "\n" = breaks 1 := rfl
  have hcall := Laid.apply (.fixed hswitch) (.cons h.text .nil)
  have hall := (hcall.append (.line 0 depth)).append (.joined (laid_texts harms))
  simp only [Form.switch, hmap, ← texts_map, hbreak]
  exact ⟨by simpa [String.append_assoc] using hall,
    (h.notes.append (taken_allNotes harms)).append (.fixed _)⟩

/-! ## Loops -/

theorem laid_strings {strings : List String} (h : ∀ string ∈ strings, Laid P [] fun _ => string) :
    List.Forall₂ (Laid P) (strings.map fun _ => []) (strings.map fun string _ => string) :=
  forall₂_map h

theorem laid_join {strings : List String} (h : ∀ string ∈ strings, Laid P [] fun _ => string) :
    Laid P [] fun _ => join strings := by
  have hcomma : Laid P [] fun _ => ", " := .fixed (by decide)
  simpa [join, Function.comp_def] using Laid.intercalate hcomma (laid_strings h)

theorem laid_updateEntry {counter : String} (hcounter : P counter)
    {update : Update (View → Fragment)} (h : DrawnOptional P U uniforms update.operand?) :
    ∃ parts texts, List.Forall₂ (Laid P) parts texts ∧ parts.flatten = uniforms ∧
      ∀ view, Counting.updateEntry counter ((update.map (· view)).map Fragment.text) =
        texts.map (· view) := by
  have hkey : Laid P [] fun _ => "update" := .fixed (by decide)
  cases update with
  | increment =>
    cases h with
    | none => exact ⟨[], [], .nil, rfl, fun _ => rfl⟩
  | decrement =>
    cases h with
    | none =>
      have hentry : Laid P [] fun _ => entry "update" (literal UnaryOp.decrement.spelling) :=
        .fixed (by decide)
      exact ⟨[[]], _, .cons hentry .nil, rfl, fun _ => rfl⟩
  | step amount =>
    cases h with
    | some h => exact ⟨[uniforms], _, .cons (hkey.entry h.text) .nil, by simp, fun _ => rfl⟩
  | assign assignment =>
    cases h with
    | some h =>
      have hopen : Unbroken "( " := by decide
      have harrow : Unbroken " ) => " := by decide
      have hparams := ((Laid.braced (.cons (.own (.inr hcounter)) .nil)).before hopen).after harrow
      exact ⟨[uniforms], _, .cons (hkey.entry (hparams.append h.text)) .nil, by simp, fun _ => rfl⟩

theorem laid_config {counting : Counting (View → Fragment)} (hname : P counting.name)
    (htype : P counting.type) (hstart : Drawn P U lefts counting.start)
    (hlimit : Drawn P U rights counting.limit)
    (hupdate : DrawnOptional P U uniforms counting.update.operand?) :
    Laid P (lefts ++ rights ++ uniforms) fun view =>
      braced ((counting.map (· view)).map Fragment.text).config := by
  have hconstant (key : String) (hkey : Unbroken key) {string : String}
      (h : Laid P [] fun _ => string) : Laid P [] fun _ => entry key (literal string) :=
    (Laid.fixed hkey).entry h.literal
  obtain ⟨parts, texts, htexts, hparts, hread⟩ := laid_updateEntry hname hupdate
  have hstarts : Laid P [] fun _ => "start" := .fixed (by decide)
  have hends : Laid P [] fun _ => "end" := .fixed (by decide)
  have hbounds := List.Forall₂.cons (hstarts.entry hstart.text)
    (.cons (hends.entry hlimit.text) .nil)
  have hspelling : Unbroken counting.comparison.spelling := by cases counting.comparison <;> decide
  have hcounter : ∀ string ∈ if counting.name = "i" then [] else
      [entry "name" (literal counting.name)], Laid P [] fun _ => string := by
    split <;> simp [hconstant "name" (by decide) (.own (.inr hname))]
  have hkind : ∀ string ∈ if counting.type = "int" then [] else
      [entry "type" (literal counting.type)], Laid P [] fun _ => string := by
    split <;> simp [hconstant "type" (by decide) (.own (.inr htype))]
  have hcomparison : ∀ string ∈ if counting.comparison = .lessThan then [] else
      [entry "condition" (literal counting.comparison.spelling)], Laid P [] fun _ => string := by
    split <;> simp [hconstant "condition" (by decide) (.fixed hspelling)]
  have hall := Laid.braced (List.rel_append (List.rel_append (List.rel_append
    (List.rel_append hbounds (laid_strings hcounter)) (laid_strings hkind))
    (laid_strings hcomparison)) htexts)
  have hconfig (view : View) : ((counting.map (· view)).map Fragment.text).config =
      [entry "start" (counting.start view).text, entry "end" (counting.limit view).text] ++
        (if counting.name = "i" then [] else [entry "name" (literal counting.name)]) ++
        (if counting.type = "int" then [] else [entry "type" (literal counting.type)]) ++
        (if counting.comparison = .lessThan then []
          else [entry "condition" (literal counting.comparison.spelling)]) ++
        Counting.updateEntry counting.name ((counting.update.map (· view)).map Fragment.text) :=
    rfl
  simp only [hconfig, hread]
  simpa [hparts, Function.comp_def] using hall

theorem drawn_countingLoop (depth : Nat) {counting : Counting (View → Fragment)}
    (hname : P counting.name) (htype : P counting.type) (hstart : Drawn P U lefts counting.start)
    (hlimit : Drawn P U rights counting.limit)
    (hupdate : DrawnOptional P U uniforms counting.update.operand?)
    (hbody : DrawnBody P U bodies body) :
    Drawn P U (lefts ++ rights ++ uniforms ++ bodies) fun view =>
      Form.countingLoop (view.margin + depth) (counting.map (· view)) (body view) := by
  have hloop : Unbroken "Loop" := by decide
  have hopen : Unbroken "( " := by decide
  have hclose : Unbroken " )" := by decide
  have hparams : Laid P [] fun _ => "( " ++ braced [counting.name] ++ " )" :=
    ((Laid.braced (.cons (.own (.inr hname)) .nil)).before hopen).after hclose
  have hcallback := Laid.callback hparams depth hbody.text
  have hcall := Laid.apply (.fixed hloop)
    (.cons (laid_config hname htype hstart hlimit hupdate) (.cons hcallback .nil))
  refine ⟨by simpa [Form.countingLoop, Counting.text, Counting.map] using hcall, ?_⟩
  simp only [Form.countingLoop, Counting.map, Update.operand?_map]
  exact (((hstart.notes.append hlimit.notes).append hupdate.notes).append hbody.notes).append
    (.fixed _)

theorem text_generalLoop (depth : Nat) (initial condition afterthought : Option Fragment)
    (body : Fragment) :
    (Form.generalLoop depth initial condition afterthought body).text =
      block depth (initial.elim "" (fun first => tabs (depth + 1) ++ first.text ++ ";\n\n") ++
        tabs (depth + 1) ++ apply "Loop" [(condition.map Fragment.text).getD "true",
          thunk (depth + 1) (body.text ++ afterthought.elim "" fun last =>
            "\n\n" ++ tabs (depth + 1 + 1) ++ last.text ++ ";")]) := by
  cases initial <;> cases afterthought <;> rfl

/-- The first statement of a block, if there is one, before the last. -/
theorem filled_setup (depth : Nat) {call : View → String} (h : DrawnOptional P U lefts part)
    (hcall : Laid P rights call) :
    Filled P (lefts ++ rights) fun view =>
      (part.map (· view)).elim "" (fun first =>
        tabs (view.margin + depth + 1) ++ first.text ++ ";\n\n") ++
          tabs (view.margin + depth + 1) ++ call view := by
  cases h with
  | none => simpa using Filled.line depth hcall
  | some h =>
    have hsemicolon : Unbroken ";" := by decide
    have hend : ";\n\n" = ";" ++ "\n\n" := rfl
    have hsetup := Filled.line depth (h.text.after hsemicolon)
    simpa [hend, String.append_assoc] using hsetup.append depth hcall

/-- The last statement of a block, if there is one, after the others. -/
theorem filled_finish (depth : Nat) (h : DrawnOptional P U lefts part)
    (hbody : DrawnBody P U bodies body) :
    Filled P (bodies ++ lefts) fun view =>
      (body view).text ++ (part.map (· view)).elim "" fun last =>
        "\n\n" ++ tabs (view.margin + depth + 1) ++ last.text ++ ";" := by
  cases h with
  | none => simpa using hbody.text
  | some h =>
    have hsemicolon : Unbroken ";" := by decide
    have hfinish := hbody.text.append depth (h.text.after hsemicolon)
    simpa [String.append_assoc] using hfinish

theorem drawn_generalLoop (depth : Nat) {setups tests finishes : List (String × String)}
    {initial test afterthought : Option (View → Fragment)}
    (hinitial : DrawnOptional P U setups initial) (htest : DrawnOptional P U tests test)
    (hafterthought : DrawnOptional P U finishes afterthought) (hbody : DrawnBody P U bodies body) :
    Drawn P U (setups ++ tests ++ bodies ++ finishes) fun view =>
      Form.generalLoop (view.margin + depth) (initial.map (· view)) (test.map (· view))
        (afterthought.map (· view)) (body view) := by
  refine ⟨?_, (((hinitial.notes.append htest.notes).append hafterthought.notes).append
    hbody.notes).append (.fixed _)⟩
  have hloop : Unbroken "Loop" := by decide
  have hcondition : Laid P tests fun view =>
      ((test.map (· view)).map Fragment.text).getD "true" := by
    cases htest with
    | none => exact .fixed (by decide)
    | some h => exact h.text
  have hthunk := Laid.thunk (depth + 1) (filled_finish (depth + 1) hafterthought hbody)
  have hcall := Laid.apply (.fixed hloop) (.cons hcondition (.cons hthunk .nil))
  have hblock := Laid.block depth (filled_setup depth hinitial hcall)
  simp only [text_generalLoop]
  simpa [← Nat.add_assoc] using hblock

end Forms

/-! ## Two views -/

def Note.isReport : Note → Bool
  | .report _ => true
  | _ => false

section Views

variable {P : String → Prop} {U : String × String → Prop} {text : View → String}
  {notes : View → List Note}

/-- Without uniforms, only the margin counts. -/
theorem Laid.eq_of_margin_eq (h : Laid P [] text) {view other : View}
    (hmargin : view.margin = other.margin) : text view = text other := by
  obtain ⟨sheet, -, huniforms, hread⟩ := h
  simp only [hread, Sheet.read, hmargin]
  refine Sheet.render_congr fun name type hmem => ?_
  rw [huniforms] at hmem
  cases hmem

theorem Laid.map_eq_of_margin_eq {parts : List (List (String × String))}
    {texts : List (View → String)} (h : List.Forall₂ (Laid P) parts texts)
    (hnone : ∀ pair ∈ parts.flatten, False) {view other : View}
    (hmargin : view.margin = other.margin) : texts.map (· view) = texts.map (· other) := by
  induction h with
  | nil => rfl
  | @cons first text rest texts hfirst hrest ih =>
    rw [List.flatten_cons, List.forall_mem_append] at hnone
    obtain rfl : first = [] := List.eq_nil_iff_forall_not_mem.mpr hnone.1
    simp only [List.map_cons, hfirst.eq_of_margin_eq hmargin, ih hnone.2]

namespace Taken

/-- Notes on uniforms depend on how uniforms are bound, and no others but reports on anything. -/
theorem quiet_eq (h : Taken P U notes) {view other : View}
    (hreference : view.reference = other.reference) :
    (notes view).filter (fun note => !note.isReport) =
      (notes other).filter fun note => !note.isReport := by
  induction h with
  | fixed => rfl
  | uniform => simp only [hreference]
  | unterminated => rfl
  | append _ _ ih ihothers => rw [List.filter_append, List.filter_append, ih, ihothers]

/-- What notes tell about the tree does not depend on the view. -/
theorem traces_eq (h : Taken P U notes) (view other : View) :
    (notes view).filterMap Note.trace? = (notes other).filterMap Note.trace? := by
  induction h with
  | fixed => rfl
  | @uniform name type =>
    have htraces (reference : Bool) :
        (Form.uniform reference name type).notes.filterMap Note.trace? = [.declared name] := by
      unfold Form.uniform Form.uniformValue
      cases reference with
      | true => rfl
      | false => cases Form.resource? type <;> rfl
    rw [htraces, htraces]
  | unterminated => rfl
  | append _ _ ih ihothers => rw [List.filterMap_append, List.filterMap_append, ih, ihothers]

/-- Without uniforms, only the margin counts. -/
theorem eq_of_margin_eq (h : Taken P (fun _ => False) notes) {view other : View}
    (hmargin : view.margin = other.margin) : notes view = notes other := by
  induction h with
  | fixed => rfl
  | uniform h => exact h.elim
  | unterminated hlabels huniforms =>
    simp only [Laid.map_eq_of_margin_eq hlabels huniforms hmargin]
  | append _ _ ih ihothers => simp only [ih, ihothers]

end Taken

end Views

end ShaderScript
