import ShaderScript.Proofs.Json.Values
import ShaderScript.Proofs.Tree
import ShaderScript.Proofs.Wire.Layouts
import ShaderScript.Wire.Encode

/-!
# Nodes are decoded as they were encoded

A record is written with all its fields, in their own order, and under different names. Such members
fill the slots of the record one after another, and nothing is left to a default. For the nodes the
rest is one induction over the tree, with one case for each kind.
-/

namespace ShaderScript.Wire

open ShaderScript.Json

/-! ## Filling a record -/

/-- The value has no number in it, and a field of this type reads this content from it. -/
structure Holds (value : Value) (type : FieldType) (content : type.Carrier) : Prop where
  plain : value.Plain
  decodes : decode value type = .ok content

/-- The members are these fields, in order, with these contents. -/
inductive HoldAll : (fields : List Field) → List (String × Value) → Values fields → Prop
  | nil : HoldAll [] [] ()
  | cons {field : Field} {fields : List Field} {key : String} {value : Value}
      {members : List (String × Value)} {content : field.type.Carrier} {contents : Values fields}
      (name : key = field.name) (first : Holds value field.type content)
      (more : HoldAll fields members contents) :
      HoldAll (field :: fields) ((key, value) :: members) (content, contents)

namespace HoldAll

variable {fields : List Field} {members : List (String × Value)} {contents : Values fields}

theorem keys (h : HoldAll fields members contents) :
    members.map Prod.fst = fields.map Field.name := by
  induction h with
  | nil => rfl
  | cons name _ _ ih => rw [List.map_cons, List.map_cons, ih, name]

theorem plain (h : HoldAll fields members contents) : ∀ member ∈ members, member.2.Plain := by
  induction h with
  | nil => simp
  | cons _ first _ ih => exact List.forall_mem_cons.mpr ⟨first.plain, ih⟩

theorem filled (hnames : (fields.map Field.name).Nodup) (h : HoldAll fields members contents) :
    Filled members fields contents := by
  induction h with
  | nil => trivial
  | @cons field fields key value members content contents name first more ih =>
    subst name
    rw [List.map_cons, List.nodup_cons] at hnames
    -- The first member is that of the first field, and no later one comes back to it.
    have hnone : occurrences field.name members = [] := by
      refine occurrences_eq_nil.mpr fun member hm heq => hnames.1 ?_
      rw [← heq, ← more.keys]
      exact List.mem_map_of_mem hm
    have hfirst := (fieldHolds_given (by rw [occurrences_cons_self, hnone])).mpr first.decodes
    exact ⟨hfirst, (filled_cons_of_notMem hnames.1 value members).mpr (ih hnames.2)⟩

end HoldAll

/-- A record that is written with its kind, if any, and its fields holds what its shape builds. -/
theorem holds_record (type : RecordType) {kind : Option String} {shape : Shape type.Carrier}
    {members : List (String × Value)} {contents : Values shape.fields}
    (hhas : type.layout.Has kind shape) (h : HoldAll shape.fields members contents) :
    Holds (.obj (Layout.kindMembers kind ++ members)) (.record type) (shape.build contents) := by
  obtain ⟨hkind, hnames⟩ := List.nodup_cons.mp (RecordType.nodup_layout hhas)
  have hmembers : ∀ member ∈ members, member.1 ≠ "kind" := by
    intro member hm heq
    rw [← heq, ← h.keys] at hkind
    exact hkind (List.mem_map_of_mem hm)
  refine ⟨.obj (List.forall_mem_append.mpr ⟨?_, h.plain⟩), ?_⟩
  · cases kind with
    | none => simp [Layout.kindMembers]
    | some name => exact List.forall_mem_singleton.mpr (.str name)
  · exact (RecordType.decode_kindMembers_eq_ok hhas hmembers).mpr ⟨contents, h.filled hnames, rfl⟩

/-! ## Contents of fields -/

theorem holds_text (text : String) : Holds (.str text) .text text :=
  ⟨.str text, rfl⟩

theorem holds_flag (value : Bool) : Holds (.bool value) .flag value :=
  ⟨.bool value, rfl⟩

theorem holds_numberKind (kind : NumberKind) : Holds (.str kind.spelling) .numberKind kind :=
  ⟨.str _, by simp only [decode, decodeString, NumberKind.ofSpelling?_spelling, named]⟩

theorem holds_binaryOp (op : BinaryOp) : Holds (.str op.spelling) .binaryOp op :=
  ⟨.str _, by simp only [decode, decodeString, BinaryOp.ofSpelling?_spelling, named]⟩

theorem holds_unaryOp (op : UnaryOp) : Holds (.str op.spelling) .unaryOp op :=
  ⟨.str _, by simp only [decode, decodeString, UnaryOp.ofSpelling?_spelling, named]⟩

theorem holds_qualifier (qualifier : Option Qualifier) :
    Holds (encodeQualifier qualifier) .qualifier qualifier := by
  cases qualifier with
  | none => exact ⟨.null, rfl⟩
  | some qualifier =>
    refine ⟨.str _, ?_⟩
    simp only [encodeQualifier, decode, decodeString, qualifierNamed,
      Qualifier.ofSpelling?_spelling, Except.map]

theorem holds_list (type : RecordType) (encode : type.Carrier → Value)
    {entries : List type.Carrier}
    (h : ∀ entry ∈ entries, Holds (encode entry) (.record type) entry) :
    Holds (.arr (entries.map encode)) (.list type) entries := by
  refine ⟨.arr ?_, ?_⟩
  · intro value hv
    obtain ⟨entry, he, rfl⟩ := List.mem_map.mp hv
    exact (h entry he).plain
  · rw [RecordType.decode_list_eq_ok, List.forall₂_map_left_iff, List.forall₂_same]
    exact fun entry he => (h entry he).decodes

theorem holds_parameter (parameter : Parameter) :
    Holds (encodeParameter parameter) (.record .parameter) parameter := by
  obtain ⟨name, type, qualifier, mutable⟩ := parameter
  have hall : HoldAll parameterShape.fields _ (name, type, qualifier, mutable, ()) :=
    .cons rfl (holds_text name) (.cons rfl (holds_text type)
      (.cons rfl (holds_qualifier qualifier) (.cons rfl (holds_flag mutable) .nil)))
  exact holds_record .parameter (.fixed parameterShape) hall

/-! ## Nodes -/

/-- The node is written with its kind first, and then with the fields of that kind. -/
def Written (node : Node) : Prop :=
  ∃ members contents, encodeNode node = tagged node.kind.name members ∧
    HoldAll (nodeShape node.kind).fields members contents ∧
      (nodeShape node.kind).build contents = node

namespace Written

variable {node : Node}

theorem holds (h : Written node) : Holds (encodeNode node) (.record .node) node := by
  obtain ⟨members, contents, hencode, hall, hbuild⟩ := h
  have hhas : RecordType.node.layout.Has (some node.kind.name) (nodeShape node.kind) :=
    .byKind (by rw [Kind.ofName_name])
  have hholds := holds_record .node hhas hall
  rw [hbuild] at hholds
  rw [hencode]
  exact hholds

theorem holds_some (h : Written node) :
    Holds (encodeNode node) (.optional .node) (some node) := by
  have hnull : encodeNode node ≠ .null := by
    obtain ⟨members, contents, hencode, -⟩ := h
    rw [hencode]
    nofun
  refine ⟨h.holds.plain, ?_⟩
  exact (RecordType.decode_optional_eq_ok hnull).mpr ⟨node, h.holds.decodes, rfl⟩

end Written

theorem holds_optional {part : Option Node} (h : ∀ node ∈ part.toList, Written node) :
    Holds (encodeOptional part) (.optional .node) part := by
  cases part with
  | none => exact ⟨.null, rfl⟩
  | some node => exact (h node (by simp)).holds_some

theorem encodeNodes_eq_map (nodes : List Node) : encodeNodes nodes = nodes.map encodeNode := by
  induction nodes with
  | nil => rfl
  | cons node nodes ih => rw [encodeNodes, ih, List.map_cons]

theorem holds_nodes {nodes : List Node} (h : ∀ node ∈ nodes, Written node) :
    Holds (.arr (encodeNodes nodes)) (.list .node) nodes := by
  rw [encodeNodes_eq_map]
  exact holds_list .node encodeNode fun node hn => (h node hn).holds

theorem encodeElements_eq_map (elements : List (Element Node)) :
    encodeElements elements = elements.map encodeElement := by
  induction elements with
  | nil => rfl
  | cons element elements ih => rw [encodeElements, ih, List.map_cons]

theorem holds_element {element : Element Node} (h : Written element.value) :
    Holds (encodeElement element) (.record .element) element := by
  have hall : HoldAll [Field.required "value" (.record .node)]
      [("value", encodeNode element.value)] (element.value, ()) := .cons rfl h.holds .nil
  cases element with
  | member value => exact holds_record .element (.byKind (if_pos rfl)) hall
  | index value =>
    have hother : "Dynamic" ≠ "Static" := by decide
    exact holds_record .element (.byKind ((if_neg hother).trans (if_pos rfl))) hall

theorem holds_elements {elements : List (Element Node)}
    (h : ∀ element ∈ elements, Written element.value) :
    Holds (.arr (encodeElements elements)) (.list .element) elements := by
  rw [encodeElements_eq_map]
  exact holds_list .element encodeElement fun element he => holds_element (h element he)

theorem encodeDeclarators_eq_map (declarators : List (Declarator Node)) :
    encodeDeclarators declarators = declarators.map encodeDeclarator := by
  induction declarators with
  | nil => rfl
  | cons declarator declarators ih => rw [encodeDeclarators, ih, List.map_cons]

theorem holds_declarators {declarators : List (Declarator Node)}
    (h : ∀ declarator ∈ declarators, ∀ node ∈ declarator.value.toList, Written node) :
    Holds (.arr (encodeDeclarators declarators)) (.list .declarator) declarators := by
  rw [encodeDeclarators_eq_map]
  refine holds_list .declarator encodeDeclarator fun declarator hd => ?_
  have hvalue := holds_optional (h declarator hd)
  obtain ⟨name, type, value, mutable⟩ := declarator
  have hall : HoldAll declaratorShape.fields _ (name, type, value, mutable, ()) :=
    .cons rfl (holds_text name) (.cons rfl (holds_text type)
      (.cons rfl hvalue (.cons rfl (holds_flag mutable) .nil)))
  exact holds_record .declarator (.fixed declaratorShape) hall

theorem encodeBranches_eq_map (key : String) (branches : List (Branch Node)) :
    encodeBranches key branches = branches.map (encodeBranch key) := by
  induction branches with
  | nil => rfl
  | cons branch branches ih => rw [encodeBranches, ih, List.map_cons]

theorem holds_branch {branch : Branch Node} (h : ∀ node ∈ branch.parts, Written node) :
    Holds (encodeOptional branch.condition) (.optional .node) branch.condition ∧
      Holds (.arr (encodeNodes branch.body)) (.list .node) branch.body :=
  ⟨holds_optional fun node hn => h node (List.mem_append_left _ hn),
    holds_nodes fun node hn => h node (List.mem_append_right _ hn)⟩

theorem holds_alternates {branches : List (Branch Node)}
    (h : ∀ branch ∈ branches, ∀ node ∈ branch.parts, Written node) :
    Holds (.arr (encodeBranches "cond" branches)) (.list .alternate) branches := by
  rw [encodeBranches_eq_map]
  refine holds_list .alternate (encodeBranch "cond") fun branch hb => ?_
  obtain ⟨hcondition, hbody⟩ := holds_branch (h branch hb)
  obtain ⟨condition, body⟩ := branch
  have hall : HoldAll alternateShape.fields _ (condition, body, ()) :=
    .cons rfl hcondition (.cons rfl hbody .nil)
  exact holds_record .alternate (.fixed alternateShape) hall

theorem holds_cases {branches : List (Branch Node)}
    (h : ∀ branch ∈ branches, ∀ node ∈ branch.parts, Written node) :
    Holds (.arr (encodeBranches "condition" branches)) (.list .switchCase) branches := by
  rw [encodeBranches_eq_map]
  refine holds_list .switchCase (encodeBranch "condition") fun branch hb => ?_
  obtain ⟨hcondition, hbody⟩ := holds_branch (h branch hb)
  obtain ⟨condition, body⟩ := branch
  have hall : HoldAll switchCaseShape.fields _ (condition, body, ()) :=
    .cons rfl hcondition (.cons rfl hbody .nil)
  exact holds_record .switchCase (.fixed switchCaseShape) hall

/-- Every node is written with the fields of its kind. -/
theorem written (node : Node) : Written node := by
  induction node using Node.parts_induction with
  | step node ih =>
    cases node with
    | number value kind =>
      refine ⟨_, (value, kind, ()), by rw [encodeNode]; rfl, ?_, rfl⟩
      exact .cons rfl (holds_text value) (.cons rfl (holds_numberKind kind) .nil)
    | string value =>
      refine ⟨_, (value, ()), by rw [encodeNode]; rfl, ?_, rfl⟩
      exact .cons rfl (holds_text value) .nil
    | accessor property =>
      refine ⟨_, (property, ()), by rw [encodeNode]; rfl, ?_, rfl⟩
      exact .cons rfl (holds_text property) .nil
    | chain object elements =>
      have hobject := (ih object (by simp [Node.parts])).holds
      have helements := holds_elements fun element he =>
        ih element.value (List.mem_cons_of_mem _ (List.mem_map_of_mem he))
      refine ⟨_, (object, elements, ()), by rw [encodeNode]; rfl, ?_, rfl⟩
      exact .cons rfl hobject (.cons rfl helements .nil)
    | operator op left right =>
      have hleft := (ih left (by simp [Node.parts])).holds
      have hright := (ih right (by simp [Node.parts])).holds
      refine ⟨_, (op, left, right, ()), by rw [encodeNode]; rfl, ?_, rfl⟩
      exact .cons rfl (holds_binaryOp op) (.cons rfl hleft (.cons rfl hright .nil))
    | unary op operand trailing =>
      have hoperand := (ih operand (by simp [Node.parts])).holds
      refine ⟨_, (op, operand, trailing, ()), by rw [encodeNode]; rfl, ?_, rfl⟩
      exact .cons rfl (holds_unaryOp op) (.cons rfl hoperand (.cons rfl (holds_flag trailing) .nil))
    | ternary condition left right =>
      have hcondition := (ih condition (by simp [Node.parts])).holds
      have hleft := (ih left (by simp [Node.parts])).holds
      have hright := (ih right (by simp [Node.parts])).holds
      refine ⟨_, (condition, left, right, ()), by rw [encodeNode]; rfl, ?_, rfl⟩
      exact .cons rfl hcondition (.cons rfl hleft (.cons rfl hright .nil))
    | call name args =>
      refine ⟨_, (name, args, ()), by rw [encodeNode]; rfl, ?_, rfl⟩
      exact .cons rfl (holds_text name) (.cons rfl (holds_nodes ih) .nil)
    | «return» value =>
      refine ⟨_, (value, ()), by rw [encodeNode]; rfl, ?_, rfl⟩
      exact .cons rfl (holds_optional ih) .nil
    | «break» | «continue» | discard | unknown =>
      exact ⟨_, (), by rw [encodeNode]; rfl, .nil, rfl⟩
    | bindings declarators =>
      have hdeclarators := holds_declarators fun declarator hd node hn =>
        ih node (List.mem_filterMap.mpr ⟨declarator, hd, Option.mem_toList.mp hn⟩)
      refine ⟨_, (declarators, ()), by rw [encodeNode]; rfl, ?_, rfl⟩
      exact .cons rfl hdeclarators .nil
    | uniform name type | varying name type =>
      refine ⟨_, (name, type, ()), by rw [encodeNode]; rfl, ?_, rfl⟩
      exact .cons rfl (holds_text name) (.cons rfl (holds_text type) .nil)
    | function declaration =>
      obtain ⟨name, type, params, body, layout⟩ := declaration
      have hparams : Holds (.arr (params.map encodeParameter)) (.list .parameter) params :=
        holds_list .parameter encodeParameter fun parameter _ => holds_parameter parameter
      refine ⟨_, (name, type, params, body, layout, ()), by rw [encodeNode]; rfl, ?_, rfl⟩
      exact .cons rfl (holds_text name) (.cons rfl (holds_text type) (.cons rfl hparams
        (.cons rfl (holds_nodes ih) (.cons rfl (holds_flag layout) .nil))))
    | conditional condition body alternates =>
      have hcondition := (ih condition (by simp [Node.parts])).holds
      have hbody := holds_nodes fun node hn =>
        ih node (List.mem_cons_of_mem _ (List.mem_append_left _ hn))
      have halternates := holds_alternates fun branch hb node hn =>
        ih node (List.mem_cons_of_mem _
          (List.mem_append_right _ (List.mem_flatMap_of_mem hb hn)))
      refine ⟨_, (condition, body, alternates, ()), by rw [encodeNode]; rfl, ?_, rfl⟩
      exact .cons rfl hcondition (.cons rfl hbody (.cons rfl halternates .nil))
    | switch discriminant cases =>
      have hdiscriminant := (ih discriminant (by simp [Node.parts])).holds
      have hcases := holds_cases fun branch hb node hn =>
        ih node (List.mem_cons_of_mem _ (List.mem_flatMap_of_mem hb hn))
      refine ⟨_, (discriminant, cases, ()), by rw [encodeNode]; rfl, ?_, rfl⟩
      exact .cons rfl hdiscriminant (.cons rfl hcases .nil)
    | loop initial condition afterthought body =>
      simp only [Node.parts, List.forall_mem_append] at ih
      obtain ⟨⟨⟨hinitial, hcondition⟩, hafterthought⟩, hbody⟩ := ih
      refine ⟨_, (initial, condition, afterthought, body, ()), by rw [encodeNode]; rfl, ?_, rfl⟩
      exact .cons rfl (holds_optional hinitial) (.cons rfl (holds_optional hcondition)
        (.cons rfl (holds_optional hafterthought) (.cons rfl (holds_nodes hbody) .nil)))

end ShaderScript.Wire
