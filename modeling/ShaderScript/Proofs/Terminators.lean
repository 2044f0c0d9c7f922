import ShaderScript.Proofs.Sheets
import ShaderScript.Proofs.Traces

/-!
# Where statements end

A body puts a semicolon behind a statement unless the text of the statement ends in a closing brace.
If only expressions stand where values are expected, and no string ends in such a brace itself, the
tree tells which statements these are: the loops that do not count, and no others. So the layout of
a body is known without a look at the text of its statements.
-/

namespace ShaderScript

open Script

/-! ## Ends of text -/

/-- The text ends in a character other than a closing brace. -/
def Unclosed (text : String) : Prop :=
  lastBrace? text = some false

namespace Unclosed

variable {text : String} {texts : List String}

theorem after (h : Unclosed text) (before : String) : Unclosed (before ++ text) := by
  rw [Unclosed, lastBrace?_append, h, Option.some_or]

theorem terminator (h : Unclosed text) : Body.terminator text = ";" := by
  have hlast : lastBrace? text = lastBrace? ";" := h
  rw [terminator_eq hlast]
  rfl

theorem orUnknown (h : text.toList.getLast? ≠ some '\x7d') : Unclosed (orUnknown text) := by
  unfold Script.orUnknown
  split
  · rfl
  · rename_i hne
    cases hlast : text.toList.getLast? with
    | none => simp_all [String.isEmpty_iff]
    | some last =>
      have hbrace : last ≠ '\x7d' := by
        rintro rfl
        exact h hlast
      simpa [Unclosed, lastBrace?, hlast] using hbrace

protected theorem apply (name : String) (args : List String) : Unclosed (apply name args) := by
  cases args with
  | nil => exact (show Unclosed "()" from rfl).after _
  | cons => exact (show Unclosed " )" from rfl).after _

protected theorem method (object name : String) (args : List String) :
    Unclosed (method object name args) :=
  (Unclosed.apply name args).after _

/-- Parts go on from a text one after the other, and the last one ends it. -/
theorem append_join (h : Unclosed text) (hparts : ∀ part ∈ texts, Unclosed part) :
    Unclosed (text ++ String.join texts) := by
  induction texts generalizing text with
  | nil => simpa using h
  | cons first rest ih =>
    obtain ⟨hfirst, hrest⟩ := List.forall_mem_cons.mp hparts
    simpa [String.append_assoc] using ih (hfirst.after text) hrest

theorem intercalate (separator : String) {first : String}
    (h : ∀ part ∈ first :: texts, Unclosed part) :
    Unclosed (separator.intercalate (first :: texts)) := by
  induction texts generalizing first with
  | nil => simpa using h
  | cons second rest ih =>
    rw [String.intercalate_cons_cons]
    exact (ih (List.forall_mem_cons.mp h).2).after _

end Unclosed

/-! ## Forms -/

namespace Form

variable {left right operand : Fragment}

theorem unclosed_number {value : String} (h : value.toList.getLast? ≠ some '\x7d')
    (kind : NumberKind) : Unclosed (number value kind).text := by
  unfold number
  split
  · exact .apply _ _
  · exact .orUnknown h

/-- The text of a binary operator ends in a parenthesis or in its right operand. -/
theorem unclosed_binary (op : BinaryOp) (hright : Unclosed right.text) :
    Unclosed (binary op left right).text := by
  unfold binary
  split_ifs
  · exact hright.after _
  · exact .apply _ _
  · exact hright.after _
  · exact .method _ _ _

theorem unclosed_unary (op : UnaryOp) (trailing initializing : Bool)
    (h : Unclosed operand.text) : Unclosed (unary op trailing initializing operand).text := by
  unfold unary
  split
  · exact h
  · split_ifs
    · exact .apply _ _
    · exact .method _ _ _

theorem unclosed_link {element : Element Fragment} (h : Unclosed element.value.text) :
    Unclosed (link element).text := by
  cases element with
  | member value => exact h.after _
  | index value =>
    rw [link]
    split_ifs
    · exact (show Unclosed " ]" from rfl).after _
    · exact (Unclosed.apply _ _).after _

theorem unclosed_call (name : String) (args : List Fragment) : Unclosed (call name args).text := by
  unfold call
  cases hchain : sampleChain? name (Fragment.texts args) with
  | none => exact .apply _ _
  | some chain =>
    obtain ⟨sampling, -, hmatch⟩ := Option.bind_eq_some_iff.mp hchain
    split at hmatch <;> cases hmatch <;> exact .method _ _ _

/-- A value that is converted already ends the binding; otherwise the conversion does. -/
theorem unclosed_binding (name type : String) {value : Option Fragment}
    (h : ∀ fragment ∈ value, Unclosed fragment.text) (isConverted mutable : Bool) :
    Unclosed (binding name type value isConverted mutable).text := by
  cases mutable with
  | true => exact (show Unclosed ".toVar()" from rfl).after _
  | false =>
    simp only [binding, Bool.false_eq_true, if_false, String.append_empty]
    refine Unclosed.after ?_ _
    cases value with
    | none => exact .apply _ _
    | some fragment =>
      cases isConverted with
      | true => exact h fragment rfl
      | false => exact .apply _ _

theorem unclosed_bindings {parts : List Fragment} (h : ∀ part ∈ parts, Unclosed part.text)
    (types : List String) : Unclosed (bindings parts types).text := by
  cases parts with
  | nil => exact show Unclosed "const " from rfl
  | cons first rest =>
    refine Unclosed.after (Unclosed.intercalate ", " ?_) _
    exact List.forall_mem_map.mpr h

theorem unclosed_uniform (reference : Bool) (name type : String) :
    Unclosed (uniform reference name type).text := by
  refine Unclosed.after ?_ _
  unfold uniformValue
  split
  · exact .apply _ _
  · split <;> exact .apply _ _

theorem unclosed_conditional (depth : Nat) (condition body : Fragment)
    (alternates : List (Option Fragment × Fragment)) :
    Unclosed (conditional depth condition body alternates).text := by
  refine Unclosed.append_join (.apply _ _) ?_
  simp only [Fragment.texts, List.map_map, List.forall_mem_map, Function.comp_apply]
  rintro (⟨_ | label, content⟩) -
  · exact (Unclosed.apply _ _).after _
  · exact (Unclosed.apply _ _).after _

/-- A switch without cases ends in the indentation of its arms. -/
theorem unclosed_switch (depth : Nat) (discriminant : Fragment)
    (cases : List (Option Fragment × Option Fragment)) :
    Unclosed (switch depth discriminant cases).text := by
  have htabs : Unclosed (tabs (depth + 1)) := by
    simp [Unclosed, lastBrace?, tabs, List.getLast?_replicate]
  refine Unclosed.append_join (htabs.after _) ?_
  simp only [Fragment.texts, List.map_map, List.forall_mem_map, Function.comp_apply]
  rintro (_ | _) -
  · exact (Unclosed.apply _ _).after _
  · exact (Unclosed.apply _ _).after _

end Form

/-! ## The tree -/

namespace Node

/-- The node is an expression. -/
def isExpression : Node → Bool
  | .number .. | .string _ | .accessor _ | .chain .. | .operator .. | .unary .. | .ternary ..
  | .call .. => true
  | _ => false

/-- The nodes directly inside a node that stand for values: operands, arguments, conditions, labels,
declared and returned values, and what a chain is made of. -/
def operands (node : Node) : List Node :=
  match node with
  | .conditional condition _ alternates => condition :: alternates.filterMap Branch.condition
  | .switch discriminant cases => discriminant :: cases.filterMap Branch.condition
  | .loop _ condition _ _ => condition.toList
  | .function _ => []
  | _ => node.parts

/-- The node is a loop that does not count. -/
def isGeneralLoop : Node → Bool
  | .loop initial condition afterthought _ =>
    (Counting.ofLoop? initial condition afterthought).isNone
  | _ => false

/-- The values directly inside the node are expressions, and no string of its own ends in a closing
brace. -/
def ownRegular (node : Node) : Bool :=
  node.operands.all isExpression &&
    node.ownStrings.all fun text => text.toList.getLast? != some '\x7d'

/-- Throughout the node, values are expressions and no string ends in a closing brace. -/
def Regular (node : Node) : Prop :=
  ∀ inner, node.Contains inner → inner.ownRegular

variable {node : Node}

theorem regular_iff : node.Regular ↔ node.ownRegular ∧ ∀ part ∈ node.parts, part.Regular := by
  constructor
  · intro h
    exact ⟨h node .refl, fun part hp inner hinner => h inner (.head hp hinner)⟩
  · rintro ⟨hown, hparts⟩ inner hinner
    obtain rfl | ⟨part, hp, hinner⟩ := Relation.ReflTransGen.cases_head hinner
    · exact hown
    · exact hparts part hp inner hinner

theorem Regular.expression (h : node.Regular) {operand : Node} (ho : operand ∈ node.operands) :
    operand.isExpression := by
  have hown := (regular_iff.mp h).1
  rw [ownRegular, Bool.and_eq_true_iff, List.all_eq_true] at hown
  exact hown.1 operand ho

theorem Regular.string (h : node.Regular) {text : String} (ht : text ∈ node.ownStrings) :
    text.toList.getLast? ≠ some '\x7d' := by
  have hown := (regular_iff.mp h).1
  rw [ownRegular, Bool.and_eq_true_iff, List.all_eq_true, List.all_eq_true] at hown
  simpa using hown.2 text ht

theorem isGeneralLoop_of_isExpression (h : node.isExpression) : node.isGeneralLoop = false := by
  cases node with
  | loop => cases h
  | _ => rfl

end Node

/-- Only a loop that does not count ends in a closing brace. -/
theorem unclosed_emit {node : Node} (h : node.Regular) (hloop : node.isGeneralLoop = false)
    (context : Context) : Unclosed (emit context node).text := by
  induction node using Node.parts_induction generalizing context with
  | step node ih =>
  have hpart : ∀ part ∈ node.parts, part ∈ node.operands → ∀ context,
      Unclosed (emit context part).text := fun part hp ho context =>
    ih part hp ((Node.regular_iff.mp h).2 part hp)
      (Node.isGeneralLoop_of_isExpression (h.expression ho)) context
  cases node with
  | number value kind =>
    rw [emit]
    exact Form.unclosed_number (h.string List.mem_cons_self) kind
  | string value =>
    rw [emit]
    exact (show Unclosed "'" from rfl).after _
  | accessor property =>
    rw [emit]
    exact .orUnknown (h.string List.mem_cons_self)
  | chain object elements =>
    rw [emit, emitElements_eq_map]
    refine Unclosed.append_join (hpart object List.mem_cons_self List.mem_cons_self context) ?_
    simp only [Fragment.texts, List.map_map, List.forall_mem_map, Function.comp_apply]
    intro element he
    have hmem : element.value ∈ (Node.chain object elements).parts :=
      List.mem_cons_of_mem _ (List.mem_map_of_mem he)
    have hvalue := hpart element.value hmem hmem context
    cases element with
    | member value | index value => exact Form.unclosed_link hvalue
  | operator op left right =>
    rw [emit]
    have hmem : right ∈ (Node.operator op left right).parts := by simp [Node.parts]
    exact Form.unclosed_binary op (hpart right hmem hmem context)
  | unary op operand trailing =>
    obtain ⟨value, kind, rfl, hemit⟩ | ⟨-, hemit⟩ := emit_unary_cases context op operand trailing
    · rw [hemit]
      exact .apply _ _
    · rw [hemit]
      exact Form.unclosed_unary _ _ _ (hpart operand List.mem_cons_self List.mem_cons_self context)
  | ternary condition left right =>
    rw [emit]
    exact .apply _ _
  | call name args =>
    rw [emit]
    exact Form.unclosed_call _ _
  | «return» value =>
    rw [emit, emitOptional_eq_map]
    cases value with
    | none => exact show Unclosed "return" from rfl
    | some value => exact (hpart value List.mem_cons_self List.mem_cons_self context).after _
  | «break» | «continue» | discard =>
    rw [emit]
    exact .apply _ _
  | bindings declarators =>
    rw [emit, emitDeclarators_eq_map]
    refine Form.unclosed_bindings (List.forall_mem_map.mpr fun declarator hd => ?_) _
    obtain ⟨name, type, value, mutable⟩ := declarator
    rw [emitDeclarator, emitOptional_eq_map]
    refine Form.unclosed_binding _ _ (fun fragment hf => ?_) _ _
    obtain ⟨node, rfl, rfl⟩ := Option.map_eq_some_iff.mp hf
    have hmem : node ∈ (Node.bindings declarators).parts := List.mem_filterMap.mpr ⟨_, hd, rfl⟩
    exact hpart node hmem hmem _
  | uniform name type =>
    rw [emit]
    exact Form.unclosed_uniform _ _ _
  | varying name type =>
    rw [emit]
    exact (Unclosed.apply _ _).after _
  | function | unknown =>
    rw [emit]
    exact show Unclosed unknownStatement from rfl
  | conditional condition body alternates =>
    rw [emit]
    exact Form.unclosed_conditional _ _ _ _
  | switch discriminant cases =>
    rw [emit]
    exact Form.unclosed_switch _ _ _
  | loop initial condition afterthought body =>
    cases hcounting : Counting.ofLoop? initial condition afterthought with
    | some counting =>
      rw [emit_counting hcounting]
      exact .apply _ _
    | none => simp [Node.isGeneralLoop, hcounting] at hloop

/-- A loop that does not count is a block. -/
theorem getLast?_generalLoop (context : Context) {node : Node} (h : node.isGeneralLoop) :
    (emit context node).text.toList.getLast? = some '\x7d' := by
  cases node with
  | loop initial condition afterthought body =>
    rw [emit_general (Option.isNone_iff_eq_none.mp h)]
    simp only [Form.generalLoop, block, String.toList_append]
    exact List.getLast?_concat
  | _ => cases h

/-- A statement is followed by a semicolon unless it is a loop that does not count. -/
theorem terminator_emit {node : Node} (h : node.Regular) (context : Context) :
    Body.terminator (emit context node).text = if node.isGeneralLoop then "" else ";" := by
  cases hloop : node.isGeneralLoop with
  | false => exact (unclosed_emit h hloop context).terminator
  | true => exact if_pos (getLast?_generalLoop context hloop)

/-! ## Bodies -/

/-- The node is a return. -/
def Node.isReturn : Node → Bool
  | .return _ => true
  | _ => false

namespace Body

/-- A line is left blank between the two statements. -/
def isSpaced (earlier later : Node) : Bool :=
  !(earlier.isExpressionLike && later.isExpressionLike && !later.isReturn)

/-- Statements one below the other, each indented and on a line of its own. -/
def stacked (indent : String) (statement : Node → String) : List Node → String
  | [] => ""
  | [node] => indent ++ statement node
  | node :: next :: rest =>
    indent ++ statement node ++ "\n" ++ (if isSpaced node next then "\n" else "") ++
      stacked indent statement (next :: rest)

theorem gap_some (earlier later : Node) :
    gap (some earlier) later = if isSpaced earlier later then "\n" else "" := by
  cases hreturn : later.isReturn with
  | true =>
    cases later with
    | «return» => simp [gap, isSpaced, Node.isReturn]
    | _ => cases hreturn
  | false =>
    have hgap : gap (some earlier) later =
        if earlier.isExpressionLike && later.isExpressionLike then "" else "\n" := by
      cases later with
      | «return» => cases hreturn
      | _ => rfl
    rw [hgap, isSpaced, hreturn]
    cases hpacks : earlier.isExpressionLike && later.isExpressionLike <;> rfl

/-- The lines of a body, put together, are its statements one below the other. -/
theorem intercalate_lines (depth : Nat) (f : Node → Fragment) (statement : Node → String)
    (previous : Option Node) (first : Node) (rest : List Node)
    (h : ∀ node ∈ first :: rest, (f node).text ++ terminator (f node).text = statement node) :
    "\n".intercalate (lines depth previous ((first :: rest).map fun node => (node, f node))) =
      gap previous first ++ stacked (tabs depth) statement (first :: rest) := by
  induction rest generalizing previous first with
  | nil =>
    obtain ⟨hfirst, -⟩ := List.forall_mem_cons.mp h
    simp [lines, stacked, ← hfirst, String.append_assoc]
  | cons second rest ih =>
    obtain ⟨hfirst, hrest⟩ := List.forall_mem_cons.mp h
    have ih := ih (some first) second hrest
    simp only [List.map_cons, lines] at ih ⊢
    rw [String.intercalate_cons_cons, ih, stacked, gap_some, ← hfirst]
    simp only [String.append_assoc]

end Body

/-- A statement of a body, with its semicolon if it takes one. -/
def finished (context : Context) (node : Node) : String :=
  (emit context node).text ++ if node.isGeneralLoop then "" else ";"

/-- A finished statement ends in a semicolon or in a brace. -/
theorem getLast?_finished (context : Context) (node : Node) :
    (finished context node).toList.getLast? =
      some (if node.isGeneralLoop then '\x7d' else ';') := by
  rw [finished]
  cases hloop : node.isGeneralLoop with
  | false => simp
  | true => simpa using getLast?_generalLoop context hloop

/-- A body ends where its last statement does. -/
theorem Body.getLast?_stacked (indent : String) (context : Context) (nodes : List Node) :
    (stacked indent (finished context) nodes).toList.getLast? =
      nodes.getLast?.map fun node => if node.isGeneralLoop then '\x7d' else ';' := by
  fun_induction stacked indent (finished context) nodes with
  | case1 => rfl
  | case2 node =>
    rw [String.toList_append, List.getLast?_append, getLast?_finished]
    rfl
  | case3 node next rest ih =>
    rw [String.toList_append, List.getLast?_append, ih, List.getLast?_cons_cons]
    simp [List.getLast?_cons]

/-- **Where statements end.** In every context, the body of regular statements has those that are
kept one below the other, one level deeper, with a semicolon behind each but the loops that do not
count. It does not end in a line break. -/
theorem text_emitBody_of_regular (context : Context) {nodes : List Node}
    (h : ∀ node ∈ nodes, node.Regular) :
    (emitBody context.deeper nodes).text =
        Body.stacked (tabs (context.depth + 1)) (finished context.deeper)
          (Body.kept context.inCase nodes) ∧
      (emitBody context.deeper nodes).text.toList.getLast? ≠ some '\n' := by
  have htext : (emitBody context.deeper nodes).text =
      Body.stacked (tabs (context.depth + 1)) (finished context.deeper)
        (Body.kept context.inCase nodes) := by
    have hkept : ∀ node ∈ Body.kept context.inCase nodes,
        (emit context.deeper node).text ++ Body.terminator (emit context.deeper node).text =
          finished context.deeper node := fun node hnode => by
      rw [terminator_emit (h node (List.mem_filter.mp hnode).1), finished]
    rw [emitBody, Body.ofFragments, Body.assemble_map]
    change "\n".intercalate (Body.lines (context.depth + 1) none
      ((Body.kept context.inCase nodes).map _)) = _
    cases hnodes : Body.kept context.inCase nodes with
    | nil => rfl
    | cons first rest =>
      rw [hnodes] at hkept
      simpa [Body.gap] using Body.intercalate_lines (context.depth + 1) (emit context.deeper)
        (finished context.deeper) none first rest hkept
  refine ⟨htext, ?_⟩
  rw [htext, Body.getLast?_stacked]
  intro hlast
  obtain ⟨node, -, hbreak⟩ := Option.map_eq_some_iff.mp hlast
  cases hloop : node.isGeneralLoop <;> simp [hloop] at hbreak

/-- In a case, a break is left out between a loop and an empty switch. -/
theorem text_emitBody_of_regular_case :
    let loop : Node := .loop none none none []
    let field : Node := .chain (.accessor "v") [.member (.accessor "xy")]
    let nodes : List Node :=
      [.call "f" [], .discard, loop, .break, .switch (.accessor "x") [], .return (some field)]
    (∀ node ∈ nodes, node.Regular) ∧
      (emitBody (Context.mk false 0 true false).deeper nodes).text =
        "\tf();\n\tDiscard();\n\n" ++
          "\t\x7b\n\n\t\tLoop( true, () => \x7b\n\n\n\n\t\t\x7d )\n\n\t\x7d\n\n" ++
          "\tSwitch( x )\n\t\t;\n\n\treturn v.xy;" := by
  intro loop field nodes
  have hleaf (node : Node) (hparts : node.parts = []) (hown : node.ownRegular) : node.Regular :=
    Node.regular_iff.mpr ⟨hown, by simp [hparts]⟩
  have hfield : field.Regular := by
    refine Node.regular_iff.mpr ⟨by decide, ?_⟩
    simpa [field, Node.parts, Element.value] using
      ⟨hleaf (.accessor "v") rfl (by decide), hleaf (.accessor "xy") rfl (by decide)⟩
  have hswitch : (Node.switch (.accessor "x") []).Regular :=
    Node.regular_iff.mpr
      ⟨by decide, by simpa [Node.parts] using hleaf (.accessor "x") rfl (by decide)⟩
  have hreturn : (Node.return (some field)).Regular :=
    Node.regular_iff.mpr ⟨by decide, by simpa [Node.parts] using hfield⟩
  have hnodes : ∀ node ∈ nodes, node.Regular := by
    simpa [nodes] using ⟨hleaf _ rfl (by decide), hleaf _ rfl (by decide),
      hleaf loop rfl (by decide), hleaf _ rfl (by decide), hswitch, hreturn⟩
  refine ⟨hnodes, (text_emitBody_of_regular _ hnodes).1.trans ?_⟩
  decide +kernel

end ShaderScript
