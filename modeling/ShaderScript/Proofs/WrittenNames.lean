import ShaderScript.Proofs.FormNames

/-!
# The names that nodes write

The names a document has to have bindings for are those that stand in it in the place of an
identifier or of a called function. `written` lists them for a node, in the order of the text; names
of methods, keys, quoted names and the names that a declaration introduces are not among them. These
are all names that are marked in the text of the node, and each of them is noted, whatever the
context.
-/

namespace ShaderScript

mutual

/-- The names in the text of a node that have to be bound, in the order of the text. -/
def written (context : Context) : Node → List String
  | .number _ kind => if kind.isNarrow then [kind.spelling] else []
  | .string _ => []
  | .accessor property => if property.isEmpty then [] else [property]
  | .chain object elements => written context object ++ writtenElements context elements
  | .operator op left right =>
    (if startsLiteral (emit context left).text && !startsLiteral (emit context right).text then
        [op.method]
      else []) ++ written context left ++ written context right
  | .unary _ (.number _ kind) _ => [kind.spelling]
  | .unary op operand trailing =>
    (if startsLiteral (emit context operand).text then
        (Form.unaryMethod? op trailing context.initializing).toList
      else []) ++ written context operand
  | .ternary condition left right =>
    "select" :: (written context condition ++ written context left ++ written context right)
  | .call name args =>
    match chainArgs? name (writtenAll context args) with
    | some used => used.flatten
    | none => name :: (writtenAll context args).flatten
  | .return value => writtenOptional context value
  | .break => ["Break"]
  | .continue => ["Continue"]
  | .discard => ["Discard"]
  | .bindings declarators => writtenDeclarators context.initializers declarators
  | .uniform _ type => [uniformConstructor context.reference type]
  | .varying _ type => ["varying", type]
  | .function _ => []
  | .conditional condition body alternates =>
    "If" :: (written context condition ++ writtenBody context.deeper body ++
      writtenAlternates context alternates)
  | .switch discriminant cases =>
    "Switch" :: (written context discriminant ++
      (Arm.group [] (writtenCases context.cases cases)).flatMap Arm.names)
  | .loop initial condition afterthought body =>
    match Counting.ofLoop? initial condition afterthought with
    | some counting =>
      "Loop" :: (writtenStart context initial ++ writtenLimit context condition ++
        writtenUpdate context counting.update afterthought ++
        writtenBody context.outsideCase.deeper body)
    | none =>
      writtenOptional context initial ++ "Loop" :: (writtenOptional context condition ++
        writtenBody context.outsideCase.deeper.deeper body ++ writtenOptional context afterthought)
  | .unknown => []

def writtenOptional (context : Context) : Option Node → List String
  | none => []
  | some node => written context node

def writtenAll (context : Context) : List Node → List (List String)
  | [] => []
  | node :: nodes => written context node :: writtenAll context nodes

/-- The names in a body; a `break` that is dropped has none. -/
def writtenBody (context : Context) : List Node → List String
  | [] => []
  | node :: nodes =>
    (if Body.isDropped context.inCase node then [] else written context node) ++
      writtenBody context nodes

def writtenElement (context : Context) : Element Node → List String
  | .member value => written context value
  | .index value => written context value

def writtenElements (context : Context) : List (Element Node) → List String
  | [] => []
  | element :: elements => writtenElement context element ++ writtenElements context elements

/-- The type of a variable is called, unless its value is a call of that type already. -/
def writtenDeclarator (context : Context) : Declarator Node → List String
  | ⟨_, type, value, _⟩ =>
    (if value.any (Node.isCallOf type) then [] else [type]) ++ writtenOptional context value

def writtenDeclarators (context : Context) : List (Declarator Node) → List String
  | [] => []
  | declarator :: declarators =>
    writtenDeclarator context declarator ++ writtenDeclarators context declarators

def writtenAlternate (context : Context) : Branch Node → List String
  | ⟨condition, body⟩ => writtenOptional context condition ++ writtenBody context.deeper body

def writtenAlternates (context : Context) : List (Branch Node) → List String
  | [] => []
  | branch :: branches => writtenAlternate context branch ++ writtenAlternates context branches

def writtenCase (context : Context) : Branch Node → Option (List String) × Option (List String)
  | ⟨condition, body⟩ =>
    (writtenLabel context condition,
      if body.isEmpty then none else some (writtenBody context.deeper body))

def writtenLabel (context : Context) : Option Node → Option (List String)
  | none => none
  | some label => some (written context label)

def writtenCases (context : Context) :
    List (Branch Node) → List (Option (List String) × Option (List String))
  | [] => []
  | branch :: branches => writtenCase context branch :: writtenCases context branches

/-- The names in the value that the counter of a counting loop starts with. -/
def writtenStart (context : Context) : Option Node → List String
  | some (.bindings [⟨_, _, some start, _⟩]) => written context start
  | _ => []

/-- The names in what the counter of a counting loop is compared to. -/
def writtenLimit (context : Context) : Option Node → List String
  | some (.operator _ _ right) => written context right
  | _ => []

/-- The names in what a counting loop shows of its afterthought. -/
def writtenUpdate (context : Context) : Update Node → Option Node → List String
  | .step _, some (.operator _ _ right) => written context right
  | .assign _, some node => written context node
  | _, _ => []

end

/-! ## Names of emitted nodes -/

section Companions

variable (context : Context)

theorem writtenAll_eq_map (nodes : List Node) :
    writtenAll context nodes = nodes.map (written context) := by
  induction nodes with
  | nil => simp [writtenAll]
  | cons node nodes ih => simp [writtenAll, ih]

theorem writtenBody_eq_flatMap (nodes : List Node) :
    writtenBody context nodes = (Body.kept context.inCase nodes).flatMap (written context) := by
  induction nodes with
  | nil => simp [writtenBody, Body.kept]
  | cons node nodes ih =>
    rw [writtenBody, ih, Body.kept, Body.kept, List.filter_cons]
    cases Body.isDropped context.inCase node <;> simp

theorem writtenElements_eq_flatten (elements : List (Element Node)) :
    writtenElements context elements = (elements.map (writtenElement context)).flatten := by
  induction elements with
  | nil => simp [writtenElements]
  | cons element elements ih => simp [writtenElements, ih]

theorem writtenDeclarators_eq_flatten (declarators : List (Declarator Node)) :
    writtenDeclarators context declarators =
      (declarators.map (writtenDeclarator context)).flatten := by
  induction declarators with
  | nil => simp [writtenDeclarators]
  | cons declarator declarators ih => simp [writtenDeclarators, ih]

theorem writtenAlternates_eq_flatten (branches : List (Branch Node)) :
    writtenAlternates context branches = (branches.map (writtenAlternate context)).flatten := by
  induction branches with
  | nil => simp [writtenAlternates]
  | cons branch branches ih => simp [writtenAlternates, ih]

theorem writtenCases_eq_map (branches : List (Branch Node)) :
    writtenCases context branches = branches.map (writtenCase context) := by
  induction branches with
  | nil => simp [writtenCases]
  | cons branch branches ih => simp [writtenCases, ih]

theorem group_writtenCases (cases : List (Branch Node)) :
    Arm.group [] (writtenCases context cases) =
      (Branch.arms cases).map (Arm.map (written context) (writtenBody context.deeper)) := by
  rw [Branch.arms, ← Arm.group_map, writtenCases_eq_map, List.map_map]
  congr 2
  funext branch
  obtain ⟨condition, body⟩ := branch
  cases condition <;> cases body <;> simp [writtenCase, writtenLabel, Branch.entry]

end Companions

/-- The names written for a node are those of its text, and are noted, wherever it stands. -/
def RecordsWritten (R : Role → String → Prop) (node : Node) : Prop :=
  ∀ context, Records R (written context node) (emit context node)

section Nodes

variable {R : Role → String → Prop} {node : Node} {nodes : List Node}

theorem records_optional {part : Option Node} (h : ∀ node ∈ part, RecordsWritten R node)
    (context : Context) :
    RecordsOptional R (writtenOptional context part) (part.map (emit context)) := by
  cases part with
  | none => simpa [writtenOptional] using RecordsOptional.none
  | some node =>
    rw [writtenOptional]
    exact .some (h node rfl context)

theorem records_writtenBody (h : ∀ node ∈ nodes, RecordsWritten R node) (context : Context) :
    Records R (writtenBody context nodes) (emitBody context nodes) := by
  rw [writtenBody_eq_flatMap]
  exact records_body fun node hn => h node hn context

theorem records_writtenElement {element : Element Node} (h : RecordsWritten R element.value)
    (context : Context) :
    Records R (writtenElement context element) (emitElement context element) := by
  cases element with
  | member value =>
    rw [writtenElement, emitElement]
    exact records_member (h context)
  | index value =>
    rw [writtenElement, emitElement]
    exact records_index (h context)

theorem records_writtenAlternate {branch : Branch Node}
    (h : ∀ node ∈ branch.parts, RecordsWritten R node) (context : Context) :
    Records R (writtenAlternate context branch)
      (Form.alternate context.depth (emitAlternate context branch)) := by
  obtain ⟨condition, body⟩ := branch
  rw [writtenAlternate, emitAlternate, emitOptional_eq_map, emitAll_eq_map,
    ofFragments_eq_emitBody]
  refine records_alternate _ (records_optional (fun node hn => h node ?_) context)
    (records_writtenBody (fun node hn => h node ?_) _)
  · exact List.mem_append_left _ (Option.mem_toList.mpr hn)
  · exact List.mem_append_right _ hn

theorem marked_writtenDeclarator {declarator : Declarator Node} (hown : R .own declarator.name)
    (h : ∀ value ∈ declarator.value, RecordsWritten R value) (context : Context) :
    Marked R (writtenDeclarator context declarator)
      (emitDeclarator context declarator).text := by
  obtain ⟨name, type, value, mutable⟩ := declarator
  rw [writtenDeclarator, emitDeclarator, emitOptional_eq_map]
  refine marked_binding type _ mutable hown (records_optional h context) fun hcall => ?_
  cases value with
  | none => simp at hcall
  | some => rfl

theorem noted_writtenDeclarator {declarator : Declarator Node}
    (h : ∀ value ∈ declarator.value, RecordsWritten R value) (context : Context) :
    ∀ name ∈ writtenDeclarator context declarator,
      name = declarator.type ∨ Noted (emitDeclarator context declarator).notes name := by
  obtain ⟨name, type, value, mutable⟩ := declarator
  rw [writtenDeclarator, emitDeclarator, emitOptional_eq_map, notes_binding]
  have hn := (records_optional h context).noted
  grind

theorem records_writtenBindings {declarators : List (Declarator Node)}
    (hown : ∀ declarator ∈ declarators, R .own declarator.name)
    (h : ∀ value ∈ declarators.filterMap Declarator.value, RecordsWritten R value) :
    RecordsWritten R (.bindings declarators) := by
  intro context
  have hvalue (declarator : Declarator Node) (hd : declarator ∈ declarators) :
      ∀ value ∈ declarator.value, RecordsWritten R value :=
    fun value hv => h value (List.mem_filterMap.mpr ⟨declarator, hd, hv⟩)
  rw [written, emit, writtenDeclarators_eq_flatten, emitDeclarators_eq_map]
  refine records_bindings ?_ ?_
  · rw [Fragment.texts, List.map_map]
    exact forall₂_map fun declarator hd =>
      marked_writtenDeclarator (hown declarator hd) (hvalue declarator hd) _
  · intro name hname
    obtain ⟨declarator, hd, hname⟩ : ∃ declarator ∈ declarators,
        name ∈ writtenDeclarator context.initializers declarator := by simpa using hname
    obtain rfl | hnoted := noted_writtenDeclarator (hvalue declarator hd) _ name hname
    · exact .inl (List.mem_map_of_mem hd)
    · exact .inr (noted_flatMap (List.mem_map_of_mem hd) hnoted)

theorem records_writtenSwitch {discriminant : Node} {cases : List (Branch Node)}
    (h : RecordsWritten R discriminant)
    (hparts : ∀ part ∈ cases.flatMap Branch.parts, RecordsWritten R part) :
    RecordsWritten R (.switch discriminant cases) := by
  intro context
  rw [written, emit, group_writtenCases, List.flatMap_def, List.map_map]
  refine records_switch context.depth (h context) ?_
  rw [group_emitCases, List.map_map]
  refine forall₂_map fun arm ha => ?_
  refine records_arm _ arm (fun label hl => ?_) (fun nodes hb => ?_)
  · exact hparts label (Branch.label_mem_parts ha hl) _
  · exact records_writtenBody (fun node hn => hparts node (Branch.body_mem_parts ha hb hn)) _

/-- Of the afterthought of a counting loop, only what the loop shows is written. -/
theorem records_update {counter : String} {last : Node} {update : Update Node}
    (hsteps : Counting.Steps counter last update) (hlast : RecordsWritten R last)
    (hparts : ∀ part ∈ last.parts, RecordsWritten R part) (context : Context) :
    RecordsOptional R (writtenUpdate context update (some last))
      (update.map (emit context)).operand? := by
  cases hsteps with
  | increment | decrement =>
    simp only [writtenUpdate, Update.map, Update.operand?]
    exact .none
  | @step op amount h =>
    simp only [writtenUpdate, Update.map, Update.operand?]
    exact .some (hparts amount (by simp [Node.parts]) context)
  | assign =>
    simp only [writtenUpdate, Update.map, Update.operand?]
    exact .some (hlast context)

theorem records_writtenLoop {initial condition afterthought : Option Node} {body : List Node}
    (hcasts : (Node.loop initial condition afterthought body).Casts R)
    (h : ∀ part ∈ (Node.loop initial condition afterthought body).parts,
      RecordsWritten R part ∧ ∀ inner ∈ part.parts, RecordsWritten R inner) :
    RecordsWritten R (.loop initial condition afterthought body) := by
  intro context
  have hbody : ∀ node ∈ body, RecordsWritten R node :=
    fun node hn => (h node (by simp [Node.parts, hn])).1
  rw [written]
  cases hcount : Counting.ofLoop? initial condition afterthought with
  | none =>
    have hoptional (part : Option Node)
        (hp : ∀ node ∈ part, node ∈ (Node.loop initial condition afterthought body).parts) :=
      records_optional (fun node hn => (h node (hp node hn)).1) context
    rw [emit_general hcount]
    refine records_generalLoop _ (hoptional initial ?_) (hoptional condition ?_)
      (hoptional afterthought ?_) (records_writtenBody hbody _)
    all_goals simp +contextual [Node.parts]
  | some counting =>
    obtain ⟨mutable, last, rfl, rfl, -, rfl, hsteps⟩ := Counting.shape_of_ofLoop? hcount
    have hfirst := h (.bindings [⟨counting.name, counting.type, some counting.start, mutable⟩])
      (by simp [Node.parts])
    have htest := h (.operator counting.comparison (.accessor counting.name) counting.limit)
      (by simp [Node.parts])
    have hlast := h last (by simp [Node.parts])
    -- Name and type of the counter are those of its declaration.
    have hroles (role : Role) (text : String) (hmem : (role, text) ∈ Node.ownRoles
        (.bindings [⟨counting.name, counting.type, some counting.start, mutable⟩])) : R role text :=
      (hcasts.part (by simp [Node.parts])).own hmem
    rw [emit_counting hcount]
    refine records_countingLoop _ (hroles .own _ (by simp [Node.ownRoles, Counting.map]))
      (hroles .quoted _ (by simp [Node.ownRoles, Counting.map]))
      (hroles .quoted _ (by simp [Node.ownRoles, Counting.map])) ?_ ?_ (records_update hsteps hlast.1 hlast.2 context)
      (records_writtenBody hbody _)
    · rw [writtenStart]
      exact hfirst.2 counting.start (by simp [Node.parts]) context
    · rw [writtenLimit]
      exact htest.2 counting.limit (by simp [Node.parts]) context

end Nodes

/-- The names of the text of a node are those written for it, and each of them is noted. -/
theorem recordsWritten {R : Role → String → Prop} {node : Node} (h : node.Casts R) :
    RecordsWritten R node := by
  induction node using Node.parts_induction₂ with
  | step node hparts =>
  have ih : ∀ part ∈ node.parts, RecordsWritten R part :=
    fun part hp => (hparts part hp).1 (h.part hp)
  intro context
  cases node with
  | number value kind =>
    rw [written, emit]
    exact records_number kind (h.own (by simp [Node.ownRoles]))
  | string value =>
    rw [written, emit]
    exact ⟨.quoted (.inr (h.own (by simp [Node.ownRoles]))), List.forall_mem_nil _⟩
  | accessor property =>
    rw [written, emit]
    exact records_accessor property
  | chain object elements =>
    rw [written, emit, writtenElements_eq_flatten, emitElements_eq_map]
    have hobject := ih object (by simp [Node.parts]) context
    refine records_chain hobject (forall₂_map fun element he => ?_)
    exact records_writtenElement (ih _ (List.mem_cons_of_mem _ (List.mem_map_of_mem he))) context
  | operator op left right =>
    rw [written, emit]
    exact records_binary op (ih left (by simp [Node.parts]) context)
      (ih right (by simp [Node.parts]) context)
  | unary op operand trailing =>
    have hoperand : operand ∈ (Node.unary op operand trailing).parts := List.mem_cons_self
    cases operand with
    | number value kind =>
      rw [written, emit]
      exact records_signedNumber op kind ((h.part hoperand).own (by simp [Node.ownRoles]))
    | _ =>
      simp only [written, emit]
      exact records_unary op trailing _ (ih _ hoperand context)
  | ternary condition left right =>
    rw [written, emit]
    exact records_ternary (ih condition (by simp [Node.parts]) context)
      (ih left (by simp [Node.parts]) context) (ih right (by simp [Node.parts]) context)
  | call name args =>
    rw [written, emit, writtenAll_eq_map, emitAll_eq_map]
    exact records_call name (forall₂_map fun arg ha => ih arg ha context)
  | «return» value =>
    rw [written, emit, emitOptional_eq_map]
    exact records_returned
      (records_optional (fun node hn => ih node (by simpa [Node.parts] using hn)) context)
  | «break» | «continue» | discard =>
    rw [written, emit]
    exact records_control _
  | bindings declarators =>
    refine records_writtenBindings (fun declarator hd => h.own ?_) ih context
    exact List.mem_flatMap.mpr ⟨declarator, hd, List.mem_cons_self⟩
  | uniform name type =>
    rw [written, emit]
    exact records_uniform _ (h.own (by simp [Node.ownRoles])) (h.own (by simp [Node.ownRoles]))
      (h.own (by simp [Node.ownRoles]))
  | varying name type =>
    rw [written, emit]
    exact records_varying type (h.own (by simp [Node.ownRoles])) (h.own (by simp [Node.ownRoles]))
  | function declaration =>
    rw [written, emit]
    exact ⟨marked_unknownStatement, List.forall_mem_nil _⟩
  | conditional condition body alternates =>
    rw [written, emit, writtenAlternates_eq_flatten, emitAlternates_eq_map, emitAll_eq_map,
      ofFragments_eq_emitBody]
    refine records_conditional _ (ih condition (by simp [Node.parts]) context)
      (records_writtenBody (fun node hn => ih node (by simp [Node.parts, hn])) _) ?_
    rw [List.map_map]
    refine forall₂_map fun branch hb => records_writtenAlternate (fun part hp => ih part ?_) context
    exact List.mem_cons_of_mem _ (List.mem_append_right _ (List.mem_flatMap.mpr ⟨branch, hb, hp⟩))
  | switch discriminant cases =>
    exact records_writtenSwitch (ih discriminant List.mem_cons_self)
      (fun part hp => ih part (List.mem_cons_of_mem _ hp)) context
  | loop initial condition afterthought body =>
    refine records_writtenLoop h (fun part hp => ⟨ih part hp, fun inner hi => ?_⟩) context
    exact (hparts part hp).2 inner hi ((h.part hp).part hi)
  | unknown =>
    rw [written, emit]
    exact ⟨marked_unknownStatement, List.forall_mem_nil _⟩

end ShaderScript
