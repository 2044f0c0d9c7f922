import Mathlib.Tactic.SplitIfs
import ShaderScript.Proofs.Emission

/-!
# Brackets in the forms of text

Text is read with the brackets in mind that are still to come. A text is balanced if it leaves them
as they were, whatever they are: it closes all that it opens, and nothing else. Every form of text
is balanced as soon as its parts are.
-/

namespace ShaderScript

/-! ## Nesting -/

/-- The bracket that closes what the character opens. -/
def closer? : Char → Option Char
  | '(' => some ')'
  | '[' => some ']'
  | '\x7b' => some '\x7d'
  | _ => none

/-- All brackets. -/
def brackets : List Char :=
  ['(', ')', '[', ']', '\x7b', '\x7d']

/-- Reads one character, where `waiting` are the brackets to come, the next one first. -/
def nestStep (waiting : List Char) (c : Char) : Option (List Char) :=
  match closer? c with
  | some closer => some (closer :: waiting)
  | none =>
    if c ∈ brackets then
      match waiting with
      | [] => none
      | expected :: rest => if c = expected then some rest else none
    else some waiting

/-- Reads characters, unless a bracket comes that is not the next one to come. -/
def nest (waiting : List Char) (chars : List Char) : Option (List Char) :=
  chars.foldlM nestStep waiting

/-- Every bracket that closes matches the one opened last, and none is left open. -/
def WellNested (text : String) : Prop :=
  nest [] text.toList = some []

/-- The text has no bracket. -/
def Bracketless (text : String) : Prop :=
  ∀ c ∈ brackets, c ∉ text.toList

instance (text : String) : Decidable (WellNested text) :=
  inferInstanceAs (Decidable (_ = _))

instance (text : String) : Decidable (Bracketless text) :=
  List.decidableBAll (fun c => c ∉ text.toList) brackets

/-- The text takes the brackets to come from the first list to the second. -/
def Nests (before : List Char) (text : String) (after : List Char) : Prop :=
  ∀ waiting, nest (before ++ waiting) text.toList = some (after ++ waiting)

/-- The text closes all that it opens, and no more. -/
def Balanced (text : String) : Prop :=
  Nests [] text []

theorem Nests.append {before middle after : List Char} {text other : String}
    (h : Nests before text middle) (hother : Nests middle other after) :
    Nests before (text ++ other) after := by
  intro waiting
  rw [String.toList_append, nest, List.foldlM_append]
  have hfirst := h waiting
  have hsecond := hother waiting
  simp only [nest] at hfirst hsecond
  rw [hfirst]
  exact hsecond

/-- Text that is balanced can stand where any brackets are open. -/
theorem Balanced.nests {text : String} (h : Balanced text) (opened : List Char) :
    Nests opened text opened :=
  fun waiting => h (opened ++ waiting)

theorem closer?_of_notMem {c : Char} (h : c ∉ brackets) : closer? c = none := by
  unfold closer?
  split
  · exact absurd (by decide) h
  · exact absurd (by decide) h
  · exact absurd (by decide) h
  · rfl

theorem Bracketless.balanced {text : String} (h : Bracketless text) : Balanced text := by
  have hchars : ∀ chars : List Char, (∀ c ∈ chars, c ∉ brackets) →
      ∀ waiting, nest waiting chars = some waiting := by
    intro chars hplain waiting
    induction chars with
    | nil => rfl
    | cons c rest ih =>
      obtain ⟨hfirst, hrest⟩ := List.forall_mem_cons.mp hplain
      have hstep : nestStep waiting c = some waiting := by
        simp [nestStep, closer?_of_notMem hfirst, hfirst]
      rw [nest, List.foldlM_cons, hstep]
      exact ih hrest
  exact hchars text.toList fun c hc hbracket => h c hbracket hc

namespace Balanced

variable {text other : String} {texts : List String}

theorem append (h : Balanced text) (hother : Balanced other) : Balanced (text ++ other) :=
  Nests.append h hother

/-- Balanced text between two texts, of which the second closes what the first opens. -/
theorem between {start finish : String} (opened : List Char) (hstart : Nests [] start opened)
    (h : Balanced text) (hfinish : Nests opened finish []) : Balanced (start ++ text ++ finish) :=
  (hstart.append (h.nests opened)).append hfinish

theorem intercalate {separator : String} (hs : Balanced separator)
    (h : ∀ text ∈ texts, Balanced text) : Balanced (separator.intercalate texts) := by
  induction texts with
  | nil => exact fun _ => rfl
  | cons first rest ih =>
    obtain ⟨hfirst, hrest⟩ := List.forall_mem_cons.mp h
    cases rest with
    | nil => simpa using hfirst
    | cons second rest =>
      rw [String.intercalate_cons_cons]
      exact (hfirst.append hs).append (ih hrest)

theorem joined (h : ∀ text ∈ texts, Balanced text) : Balanced (String.join texts) := by
  induction texts with
  | nil => exact fun _ => rfl
  | cons first rest ih =>
    obtain ⟨hfirst, hrest⟩ := List.forall_mem_cons.mp h
    rw [String.join_cons]
    exact hfirst.append (ih hrest)

theorem join (h : ∀ text ∈ texts, Balanced text) : Balanced (Script.join texts) :=
  intercalate (fun _ => rfl) h

theorem unknownStatement : Balanced Script.unknownStatement :=
  fun _ => rfl

theorem orUnknown (h : Balanced text) : Balanced (Script.orUnknown text) := by
  unfold Script.orUnknown
  split
  · exact unknownStatement
  · exact h

theorem tabs (depth : Nat) : Balanced (Script.tabs depth) := by
  refine Bracketless.balanced fun c hbracket hc => ?_
  rw [Script.tabs, String.toList_ofList] at hc
  rw [List.eq_of_mem_replicate hc] at hbracket
  exact absurd hbracket (by decide)

theorem apply (name : String) (hname : Balanced name) (h : ∀ text ∈ texts, Balanced text) :
    Balanced (Script.apply name texts) := by
  have hjoin := join h
  cases texts with
  | nil => exact hname.append fun _ => rfl
  | cons first rest =>
    have hstart : Nests [] (name ++ "( ") [')'] := Nests.append hname fun _ => rfl
    exact between [')'] hstart hjoin fun _ => rfl

theorem method {object : String} (name : String) (hobject : Balanced object) (hname : Balanced name)
    (h : ∀ text ∈ texts, Balanced text) : Balanced (Script.method object name texts) := by
  have hpoint : Balanced "." := fun _ => rfl
  exact (hobject.append hpoint).append (apply name hname h)

theorem literal (h : Balanced text) : Balanced (Script.literal text) :=
  between [] (fun _ => rfl) h fun _ => rfl

theorem braced (h : ∀ text ∈ texts, Balanced text) : Balanced (Script.braced texts) :=
  between ['\x7d'] (fun _ => rfl) (join h) fun _ => rfl

theorem bracketed (h : ∀ text ∈ texts, Balanced text) : Balanced (Script.bracketed texts) :=
  between [']'] (fun _ => rfl) (join h) fun _ => rfl

theorem entry {key : String} (hkey : Balanced key) (h : Balanced text) :
    Balanced (Script.entry key text) := by
  have hcolon : Balanced ": " := fun _ => rfl
  exact (hkey.append hcolon).append h

theorem block (depth : Nat) (h : Balanced text) : Balanced (Script.block depth text) := by
  have hstart : Nests [] "\x7b\n\n" ['\x7d'] := fun _ => rfl
  have hlines : Balanced "\n\n" := fun _ => rfl
  have hcontent := ((hstart.append (h.nests _)).append (hlines.nests _)).append
    ((tabs depth).nests _)
  exact hcontent.append fun _ => rfl

theorem callback {params : String} (hparams : Balanced params) (depth : Nat) (h : Balanced text) :
    Balanced (Script.callback params depth text) := by
  have harrow : Balanced " => " := fun _ => rfl
  exact (hparams.append harrow).append (h.block depth)

theorem thunk (depth : Nat) (h : Balanced text) : Balanced (Script.thunk depth text) :=
  callback (fun _ => rfl) depth h

end Balanced

/-! ## Forms -/

theorem balanced_binaryOp (op : BinaryOp) : Balanced op.spelling ∧ Balanced op.method := by
  cases op <;> exact ⟨fun _ => rfl, fun _ => rfl⟩

theorem balanced_numberKind (kind : NumberKind) : Balanced kind.spelling := by
  cases kind <;> exact fun _ => rfl

theorem balanced_unarySpelling (op : UnaryOp) : Balanced op.spelling := by
  cases op <;> exact fun _ => rfl

theorem balanced_unaryMethod {op : UnaryOp} {trailing initializing : Bool} {name : String}
    (h : Form.unaryMethod? op trailing initializing = some name) : Balanced name := by
  obtain ⟨base, hbase, rfl⟩ := Option.map_eq_some_iff.mp h
  have hname : Balanced base := by cases op <;> cases hbase <;> exact fun _ => rfl
  split
  · have hbefore : Balanced "Before" := fun _ => rfl
    exact hname.append hbefore
  · exact hname

namespace Form

variable {condition left right value : Fragment} {fragments : List Fragment}

theorem balanced_number {value : String} (h : Balanced value) (kind : NumberKind) :
    Balanced (number value kind).text := by
  unfold number
  split
  · exact .apply _ (balanced_numberKind kind) (by simpa using h)
  · exact h.orUnknown

theorem balanced_binary (op : BinaryOp) (hleft : Balanced left.text)
    (hright : Balanced right.text) : Balanced (binary op left right).text := by
  obtain ⟨hspelling, hmethod⟩ := balanced_binaryOp op
  have hblank : Balanced " " := fun _ => rfl
  have hpoint : Balanced "." := fun _ => rfl
  unfold binary
  split_ifs
  · exact (((hleft.append hblank).append hspelling).append hblank).append hright
  · exact .apply _ hmethod (by simp [hleft, hright])
  · exact (hleft.append hpoint).append hright
  · exact .method _ hleft hmethod (by simpa using hright)

theorem balanced_signedNumber (op : UnaryOp) {value : String} (h : Balanced value)
    (kind : NumberKind) : Balanced (signedNumber op value kind).text := by
  have hblank : Balanced " " := fun _ => rfl
  have hsigned := ((balanced_unarySpelling op).append hblank).append h
  exact .apply _ (balanced_numberKind kind) (by simpa using hsigned)

theorem balanced_unary (op : UnaryOp) (trailing initializing : Bool) (h : Balanced value.text) :
    Balanced (unary op trailing initializing value).text := by
  unfold unary
  split
  · exact h
  · rename_i name hname
    split_ifs
    · exact .apply name (balanced_unaryMethod hname) (by simpa using h)
    · exact .method name h (balanced_unaryMethod hname) (List.forall_mem_nil _)

theorem balanced_sampleChain {name chain : String} {args : List String}
    (h : ∀ text ∈ args, Balanced text) (hchain : sampleChain? name args = some chain) :
    Balanced chain := by
  have hsample {resource coordinate : String} (hresource : Balanced resource)
      (hcoordinate : Balanced coordinate) :
      Balanced (Script.method resource "sample" [coordinate]) :=
    .method "sample" hresource (fun _ => rfl) (by simpa using hcoordinate)
  obtain ⟨call, -, hcall⟩ := Option.bind_eq_some_iff.mp hchain
  split at hcall <;> cases hcall <;> simp only [List.forall_mem_cons] at h
  · exact hsample h.1 h.2.1
  · exact .method "bias" (hsample h.1 h.2.1) (fun _ => rfl) (by simpa using h.2.2.1)
  · exact .method "level" (hsample h.1 h.2.1) (fun _ => rfl) (by simpa using h.2.2.1)
  · exact .method "grad" (hsample h.1 h.2.1) (fun _ => rfl) (by simp [h.2.2.1, h.2.2.2.1])
  · have hfalse : Balanced "false" := fun _ => rfl
    exact .method "setSampler" (hsample h.1 h.2.1) (fun _ => rfl) (by simpa using hfalse)

theorem balanced_call {name : String} (hname : Balanced name)
    (h : ∀ fragment ∈ fragments, Balanced fragment.text) : Balanced (call name fragments).text := by
  have htexts : ∀ text ∈ Fragment.texts fragments, Balanced text := List.forall_mem_map.mpr h
  unfold call
  split
  · rename_i chain hchain
    exact balanced_sampleChain htexts hchain
  · exact .apply name hname htexts

theorem balanced_link {element : Element Fragment} (h : Balanced element.value.text) :
    Balanced (link element).text := by
  have hpoint : Balanced "." := fun _ => rfl
  cases element with
  | member value => exact hpoint.append h
  | index value =>
    have hvalue : ∀ text ∈ [value.text], Balanced text := List.forall_mem_singleton.mpr h
    simp only [link]
    split
    · exact .bracketed hvalue
    · exact hpoint.append (.apply "element" (fun _ => rfl) hvalue)

theorem balanced_chain (h : Balanced value.text)
    (hlinks : ∀ fragment ∈ fragments, Balanced fragment.text) :
    Balanced (chain value fragments).text :=
  h.append (.joined (List.forall_mem_map.mpr hlinks))

theorem balanced_returned {value : Option Fragment}
    (h : ∀ fragment ∈ value, Balanced fragment.text) : Balanced (returned value).text := by
  have hreturn : Balanced "return " := fun _ => rfl
  cases value with
  | none => exact fun _ => rfl
  | some value => exact hreturn.append (h value rfl)

theorem balanced_binding {name type : String} {value : Option Fragment} (hname : Balanced name)
    (htype : Balanced type) (h : ∀ fragment ∈ value, Balanced fragment.text)
    (isConverted mutable : Bool) :
    Balanced (binding name type value isConverted mutable).text := by
  have hequals : Balanced " = " := fun _ => rfl
  refine ((hname.append hequals).append ?_).append ?_
  · cases value with
    | none => exact .apply type htype (List.forall_mem_nil _)
    | some value =>
      cases isConverted with
      | true => exact h value rfl
      | false => exact .apply type htype (by simpa using h value rfl)
  · cases mutable <;> exact fun _ => rfl

theorem balanced_bindings (h : ∀ fragment ∈ fragments, Balanced fragment.text)
    (types : List String) : Balanced (bindings fragments types).text := by
  have hconst : Balanced "const " := fun _ => rfl
  exact hconst.append (.join (List.forall_mem_map.mpr h))

theorem balanced_resource {type constructor className : String}
    (h : resource? type = some (constructor, className)) :
    Balanced constructor ∧ Balanced className := by
  unfold resource? at h
  split_ifs at h <;> cases h <;> exact ⟨fun _ => rfl, fun _ => rfl⟩

theorem balanced_uniformValue (reference : Bool) {name type : String} (hname : Balanced name)
    (htype : Balanced type) : Balanced (uniformValue reference name type).text := by
  unfold uniformValue
  split
  · have hvalue : Balanced "value" := fun _ => rfl
    have huniforms : Balanced "uniforms" := fun _ => rfl
    have hstore := huniforms.append (.bracketed (List.forall_mem_singleton.mpr hname.literal))
    exact .apply "reference" (fun _ => rfl) (by simp [hvalue.literal, htype.literal, hstore])
  · split
    · rename_i constructor className hresource
      obtain ⟨hconstructor, hclass⟩ := balanced_resource hresource
      have hcomment : Balanced ("/* <" ++ className ++ "> */") :=
        .between [] (fun _ => rfl) hclass fun _ => rfl
      exact .apply constructor hconstructor (List.forall_mem_singleton.mpr hcomment)
    · exact .apply "uniform" (fun _ => rfl) (List.forall_mem_singleton.mpr htype.literal)

theorem balanced_uniform (reference : Bool) {name type : String} (hname : Balanced name)
    (htype : Balanced type) : Balanced (uniform reference name type).text := by
  have hconst : Balanced "const " := fun _ => rfl
  have hequals : Balanced " = " := fun _ => rfl
  exact ((hconst.append hname).append hequals).append (balanced_uniformValue reference hname htype)

theorem balanced_varying {name type : String} (hname : Balanced name) (htype : Balanced type) :
    Balanced (varying name type).text := by
  have hconst : Balanced "const " := fun _ => rfl
  have hequals : Balanced " = " := fun _ => rfl
  have hcall : Balanced (Script.apply type []) := .apply type htype (List.forall_mem_nil _)
  refine ((hconst.append hname).append hequals).append (.apply "varying" (fun _ => rfl) ?_)
  simp [hcall, hname.literal]

theorem balanced_alternate (depth : Nat) {condition : Option Fragment} {body : Fragment}
    (hcondition : ∀ fragment ∈ condition, Balanced fragment.text) (hbody : Balanced body.text) :
    Balanced (alternate depth (condition, body)).text := by
  have hpoint : Balanced "." := fun _ => rfl
  cases condition with
  | none =>
    exact hpoint.append (.apply "Else" (fun _ => rfl) (by simpa using hbody.thunk depth))
  | some condition =>
    refine hpoint.append (.apply "ElseIf" (fun _ => rfl) ?_)
    simp [hcondition condition rfl, hbody.thunk depth]

theorem balanced_conditional (depth : Nat) {body : Fragment}
    {alternates : List (Option Fragment × Fragment)} (hcondition : Balanced condition.text)
    (hbody : Balanced body.text)
    (hlinks : ∀ branch ∈ alternates, Balanced (alternate depth branch).text) :
    Balanced (conditional depth condition body alternates).text := by
  have hargs : ∀ text ∈ [condition.text, Script.thunk depth body.text], Balanced text := by
    simp [hcondition, hbody.thunk depth]
  refine .append (.apply "If" (fun _ => rfl) hargs) (.joined ?_)
  rw [Fragment.texts, List.map_map]
  exact List.forall_mem_map.mpr hlinks

theorem balanced_arm (depth : Nat) {arm : Arm Fragment Fragment}
    (hlabels : ∀ label ∈ arm.labels, Balanced label.text)
    (hbody : ∀ body ∈ arm.body?, Balanced body.text) : Balanced (Form.arm depth arm).text := by
  have hpoint : Balanced "." := fun _ => rfl
  have hthunk : Balanced (Script.thunk depth ((arm.body?.map Fragment.text).getD "")) := by
    refine .thunk depth ?_
    cases hopt : arm.body? with
    | none => exact fun _ => rfl
    | some body => exact hbody body hopt
  cases arm with
  | cases labels body closed =>
    refine hpoint.append (.apply "Case" (fun _ => rfl) ?_)
    rw [List.forall_mem_append, List.forall_mem_singleton]
    exact ⟨List.forall_mem_map.mpr hlabels, hthunk⟩
  | default body =>
    exact hpoint.append (.apply "Default" (fun _ => rfl) (List.forall_mem_singleton.mpr hthunk))

theorem balanced_switch (depth : Nat) {discriminant : Fragment}
    {cases : List (Option Fragment × Option Fragment)} (h : Balanced discriminant.text)
    (harms : ∀ arm ∈ Arm.group [] cases, Balanced (Form.arm (depth + 1) arm).text) :
    Balanced (switch depth discriminant cases).text := by
  have hline : Balanced "\n" := fun _ => rfl
  have hswitch : Balanced (Script.apply "Switch" [discriminant.text]) :=
    .apply "Switch" (fun _ => rfl) (List.forall_mem_singleton.mpr h)
  refine ((hswitch.append hline).append (.tabs _)).append (.joined ?_)
  rw [Fragment.texts, List.map_map]
  exact List.forall_mem_map.mpr harms

theorem balanced_updateEntry {name : String} {update : Update String} (hname : Balanced name)
    (h : ∀ text ∈ update.operand?, Balanced text) :
    ∀ text ∈ Counting.updateEntry name update, Balanced text := by
  have hupdate : Balanced "update" := fun _ => rfl
  cases update with
  | increment => exact List.forall_mem_nil _
  | decrement =>
    have hentry := hupdate.entry (balanced_unarySpelling .decrement).literal
    exact List.forall_mem_singleton.mpr hentry
  | step amount => exact List.forall_mem_singleton.mpr (hupdate.entry (h amount rfl))
  | assign assignment =>
    have hparams : Balanced ("( " ++ Script.braced [name] ++ " ) => ") :=
      .between [')'] (fun _ => rfl) (.braced (List.forall_mem_singleton.mpr hname)) fun _ => rfl
    exact List.forall_mem_singleton.mpr (hupdate.entry (hparams.append (h assignment rfl)))

theorem balanced_config {counting : Counting String} (hname : Balanced counting.name)
    (htype : Balanced counting.type) (hstart : Balanced counting.start)
    (hlimit : Balanced counting.limit)
    (hupdate : ∀ text ∈ counting.update.operand?, Balanced text) :
    ∀ text ∈ counting.config, Balanced text := by
  have hkey {key value : String} (hkey : Balanced key) (hvalue : Balanced value) (shown : Prop)
      [Decidable shown] :
      ∀ text ∈ if shown then [] else [Script.entry key (Script.literal value)], Balanced text := by
    split
    · exact List.forall_mem_nil _
    · exact List.forall_mem_singleton.mpr (hkey.entry hvalue.literal)
  have hcomparison := (balanced_binaryOp counting.comparison).1
  have hbounds : ∀ text ∈ [Script.entry "start" counting.start, Script.entry "end" counting.limit],
      Balanced text := by
    have hs : Balanced "start" := fun _ => rfl
    have he : Balanced "end" := fun _ => rfl
    simp [hs.entry hstart, he.entry hlimit]
  simp only [Counting.config, List.forall_mem_append]
  exact ⟨⟨⟨⟨hbounds, hkey (fun _ => rfl) hname _⟩, hkey (fun _ => rfl) htype _⟩,
    hkey (fun _ => rfl) hcomparison _⟩, balanced_updateEntry hname hupdate⟩

/-- A counting loop is a call with balanced arguments. -/
theorem countingLoop_args (depth : Nat) {counting : Counting Fragment} {body : Fragment}
    (hname : Balanced counting.name) (htype : Balanced counting.type)
    (hstart : Balanced counting.start.text) (hlimit : Balanced counting.limit.text)
    (hupdate : ∀ fragment ∈ counting.update.operand?, Balanced fragment.text)
    (hbody : Balanced body.text) :
    ∃ args, (countingLoop depth counting body).text = Script.apply "Loop" args ∧
      ∀ text ∈ args, Balanced text := by
  have hparams : Balanced ("( " ++ Script.braced [counting.name] ++ " )") :=
    .between [')'] (fun _ => rfl) (.braced (List.forall_mem_singleton.mpr hname)) fun _ => rfl
  have hoperand : ∀ text ∈ (counting.update.map Fragment.text).operand?, Balanced text := by
    cases hopt : counting.update <;> simp_all [Update.map, Update.operand?]
  refine ⟨[_, _], rfl, ?_⟩
  rw [List.forall_mem_cons, List.forall_mem_singleton]
  exact ⟨.braced (balanced_config hname htype hstart hlimit hoperand),
    .callback hparams depth hbody⟩

/-- Any other loop is a block with balanced content. -/
theorem generalLoop_content (depth : Nat) {initial condition afterthought : Option Fragment}
    {body : Fragment} (hinitial : ∀ fragment ∈ initial, Balanced fragment.text)
    (hcondition : ∀ fragment ∈ condition, Balanced fragment.text)
    (hafterthought : ∀ fragment ∈ afterthought, Balanced fragment.text)
    (hbody : Balanced body.text) :
    ∃ content,
      (generalLoop depth initial condition afterthought body).text = Script.block depth content ∧
        Balanced content := by
  have hline : Balanced "\n\n" := fun _ => rfl
  refine ⟨_, rfl, (Balanced.append ?_ (.tabs _)).append ?_⟩
  · cases initial with
    | none => exact fun _ => rfl
    | some initial => exact ((Balanced.tabs _).append (hinitial initial rfl)).append fun _ => rfl
  · refine .apply "Loop" (fun _ => rfl) ?_
    rw [List.forall_mem_cons, List.forall_mem_singleton]
    constructor
    · cases condition with
      | none => exact fun _ => rfl
      | some condition => exact hcondition condition rfl
    · refine .thunk _ (hbody.append ?_)
      cases afterthought with
      | none => exact fun _ => rfl
      | some afterthought =>
        exact ((hline.append (.tabs _)).append (hafterthought afterthought rfl)).append fun _ => rfl

end Form

namespace Body

theorem balanced_gap (previous : Option Node) (current : Node) :
    Balanced (gap previous current) := by
  unfold gap
  split
  · exact fun _ => rfl
  · exact fun _ => rfl
  · split <;> exact fun _ => rfl

theorem balanced_lines (depth : Nat) {nodes : List (Node × Fragment)} (previous : Option Node)
    (h : ∀ entry ∈ nodes, Balanced entry.2.text) :
    ∀ text ∈ lines depth previous nodes, Balanced text := by
  induction nodes generalizing previous with
  | nil => exact List.forall_mem_nil _
  | cons entry rest ih =>
    obtain ⟨node, fragment⟩ := entry
    obtain ⟨hfirst, hrest⟩ := List.forall_mem_cons.mp h
    rw [lines, List.forall_mem_cons]
    refine ⟨?_, ih (some node) hrest⟩
    refine (((balanced_gap previous node).append (.tabs _)).append hfirst).append ?_
    unfold terminator
    split <;> exact fun _ => rfl

end Body

end ShaderScript
