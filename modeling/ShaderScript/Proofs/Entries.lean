import Mathlib.Data.List.DropRight
import ShaderScript.Proofs.Balance

/-!
# Entries of an object

An object is written with a colon behind every key. Unless a string of the program brings one along,
no other colon stands outside brackets. So the text of an object can be cut at its colons, and the
entries come back, whatever nodes their values were written from.
-/

namespace ShaderScript

/-! ## Cutting at colons -/

/-- Cuts characters at the colons outside brackets, up to the bracket that closes what is open
around them. The characters in `current` have been read since the last cut. -/
def pieces (waiting current : List Char) : List Char → List (List Char)
  | [] => [current]
  | c :: rest =>
    if waiting = [] ∧ c = ':' then current :: pieces [] [] rest
    else
      match nestStep waiting c with
      | none => [current]
      | some further => pieces further (current ++ [c]) rest

/-- The text is read without a cut, and takes the brackets to come from the first list to the
second. -/
def Reads (before : List Char) (text : String) (after : List Char) : Prop :=
  ∀ current rest, pieces before current (text.toList ++ rest) =
    pieces after (current ++ text.toList) rest

/-- The text has no cut, where nothing is open around it. -/
def Uncut (text : String) : Prop :=
  Reads [] text []

theorem Reads.append {before middle after : List Char} {text other : String}
    (h : Reads before text middle) (hother : Reads middle other after) :
    Reads before (text ++ other) after := by
  intro current rest
  rw [String.toList_append, List.append_assoc, h, hother, List.append_assoc]

theorem nest_cons {waiting after : List Char} {c : Char} {rest : List Char}
    (h : nest waiting (c :: rest) = some after) :
    ∃ further, nestStep waiting c = some further ∧ nest further rest = some after := by
  rw [nest, List.foldlM_cons] at h
  exact Option.bind_eq_some_iff.mp h

theorem nestStep_append {waiting further : List Char} {c : Char}
    (h : nestStep waiting c = some further) (outer : List Char) :
    nestStep (waiting ++ outer) c = some (further ++ outer) := by
  unfold nestStep at h ⊢
  split at h
  · cases h
    simp [*]
  · split_ifs at h ⊢ with hbracket
    · cases waiting with
      | nil => cases h
      | cons expected rest =>
        simp only [List.cons_append] at h ⊢
        split_ifs at h ⊢
        cases h
        rfl
    · cases h
      rfl

/-- Characters are only read for their brackets if they have no colon, or stand inside brackets. -/
theorem pieces_nest {waiting after outer chars : List Char} (hcut : outer = [] → ':' ∉ chars)
    (h : nest waiting chars = some after) (current rest : List Char) :
    pieces (waiting ++ outer) current (chars ++ rest) =
      pieces (after ++ outer) (current ++ chars) rest := by
  induction chars generalizing waiting current with
  | nil =>
    obtain rfl : waiting = after := Option.some.inj h
    rw [List.nil_append, List.append_nil]
  | cons c chars ih =>
    obtain ⟨further, hstep, hnest⟩ := nest_cons h
    have hc : ¬ (waiting ++ outer = [] ∧ c = ':') := by
      rintro ⟨hempty, rfl⟩
      exact hcut (List.append_eq_nil_iff.mp hempty).2 List.mem_cons_self
    have hchars : outer = [] → ':' ∉ chars :=
      fun houter hmem => hcut houter (List.mem_cons_of_mem c hmem)
    rw [List.cons_append, pieces, if_neg hc, nestStep_append hstep outer]
    simp only
    rw [ih hchars hnest (current ++ [c]), List.append_assoc, List.singleton_append]

theorem Reads.colonless {before after : List Char} {text : String} (hcolon : ':' ∉ text.toList)
    (h : nest before text.toList = some after) : Reads before text after := by
  intro current rest
  simpa using @pieces_nest before after [] text.toList (fun _ => hcolon) h current rest

theorem Balanced.reads {text : String} (h : Balanced text) {outer : List Char}
    (houter : outer ≠ []) : Reads outer text outer :=
  fun current rest => pieces_nest (fun hempty => absurd hempty houter) (h []) current rest

/-! ## Forms of text -/

namespace Uncut

variable {text other : String} {texts : List String}

theorem append (h : Uncut text) (hother : Uncut other) : Uncut (text ++ other) :=
  Reads.append h hother

/-- Text between two texts without colons, of which the first opens brackets that the second
closes. -/
theorem between {start finish : String} (opened : List Char) (hopened : opened ≠ [])
    (hstart : Reads [] start opened) (h : Balanced text) (hfinish : Reads opened finish []) :
    Uncut (start ++ text ++ finish) :=
  (hstart.append (h.reads hopened)).append hfinish

theorem intercalate {separator : String} (hs : Uncut separator) (h : ∀ text ∈ texts, Uncut text) :
    Uncut (separator.intercalate texts) := by
  induction texts with
  | nil => exact .colonless (show ':' ∉ "".toList by decide) rfl
  | cons first rest ih =>
    obtain ⟨hfirst, hrest⟩ := List.forall_mem_cons.mp h
    cases rest with
    | nil => simpa using hfirst
    | cons second rest =>
      rw [String.intercalate_cons_cons]
      exact (hfirst.append hs).append (ih hrest)

theorem joined (h : ∀ text ∈ texts, Uncut text) : Uncut (String.join texts) := by
  induction texts with
  | nil => exact .colonless (by decide) rfl
  | cons first rest ih =>
    obtain ⟨hfirst, hrest⟩ := List.forall_mem_cons.mp h
    rw [String.join_cons]
    exact hfirst.append (ih hrest)

theorem unknownStatement : Uncut Script.unknownStatement :=
  .colonless (by decide) rfl

theorem orUnknown (h : Uncut text) : Uncut (Script.orUnknown text) := by
  unfold Script.orUnknown
  split
  · exact unknownStatement
  · exact h

theorem tabs (depth : Nat) : Uncut (Script.tabs depth) := by
  refine .colonless (fun hcolon => ?_) (Balanced.tabs depth [])
  rw [Script.tabs, String.toList_ofList] at hcolon
  exact absurd (List.eq_of_mem_replicate hcolon) (by decide)

theorem apply (hname : Uncut other) (h : ∀ text ∈ texts, Balanced text) :
    Uncut (Script.apply other texts) := by
  have hjoin := Balanced.join h
  cases texts with
  | nil => exact hname.append (.colonless (by decide) rfl)
  | cons first rest =>
    have hstart : Reads [] (other ++ "( ") [')'] := Reads.append hname (.colonless (by decide) rfl)
    exact between [')'] (by decide) hstart hjoin (.colonless (by decide) rfl)

theorem method {object : String} (hobject : Uncut object) (hname : Uncut other)
    (h : ∀ text ∈ texts, Balanced text) : Uncut (Script.method object other texts) :=
  (hobject.append (.colonless (by decide) rfl)).append (apply hname h)

theorem literal (h : Uncut text) : Uncut (Script.literal text) :=
  ((Reads.colonless (by decide) rfl : Uncut "'").append h).append (.colonless (by decide) rfl)

theorem bracketed (h : ∀ text ∈ texts, Balanced text) : Uncut (Script.bracketed texts) :=
  between [']'] (by decide) (.colonless (by decide) rfl) (.join h) (.colonless (by decide) rfl)

theorem block (depth : Nat) (h : Balanced text) : Uncut (Script.block depth text) := by
  have hstart : Reads [] "\x7b\n\n" ['\x7d'] := .colonless (by decide) rfl
  have hlines : Reads ['\x7d'] "\n\n" ['\x7d'] := .colonless (by decide) rfl
  have hcontent := ((hstart.append (h.reads (by decide))).append hlines).append
    ((Balanced.tabs depth).reads (by decide))
  exact hcontent.append (.colonless (by decide) rfl)

end Uncut

/-! ## Nodes -/

/-- The text has no bracket, no colon and no quote. -/
def PlainText (text : String) : Prop :=
  ∀ c ∈ ':' :: '\'' :: brackets, c ∉ text.toList

instance (text : String) : Decidable (PlainText text) :=
  List.decidableBAll (fun c => c ∉ text.toList) (':' :: '\'' :: brackets)

theorem PlainText.bracketless {text : String} (h : PlainText text) : Bracketless text :=
  fun c hc => h c (List.mem_cons_of_mem _ (List.mem_cons_of_mem _ hc))

theorem PlainText.uncut {text : String} (h : PlainText text) : Uncut text :=
  .colonless (h ':' List.mem_cons_self) (h.bracketless.balanced [])

namespace Node

/-- No string in the node has a bracket, a colon or a quote. -/
def Plain (node : Node) : Prop :=
  ∀ text ∈ node.strings, PlainText text

variable {node : Node}

theorem Plain.bracketless (h : node.Plain) : node.Bracketless :=
  fun text htext => (h text htext).bracketless

theorem Plain.own (h : node.Plain) {text : String} (hmem : text ∈ node.ownStrings) :
    PlainText text :=
  h text (mem_strings.mpr (.inl hmem))

theorem Plain.part (h : node.Plain) {part : Node} (hmem : part ∈ node.parts) : part.Plain :=
  fun text htext => h text (mem_strings.mpr (.inr ⟨part, hmem, htext⟩))

theorem Plain.balanced (h : node.Plain) (context : Context) : Balanced (emit context node).text :=
  emitsBalanced h.bracketless context

end Node

namespace Form

variable {left right value : Fragment}

theorem uncut_number {value : String} (h : PlainText value) (kind : NumberKind) :
    Uncut (number value kind).text := by
  unfold number
  split
  · refine .apply ?_ (List.forall_mem_singleton.mpr h.bracketless.balanced)
    cases kind <;> exact .colonless (by decide) rfl
  · exact h.uncut.orUnknown

theorem uncut_signedNumber (op : UnaryOp) {value : String} (h : PlainText value)
    (kind : NumberKind) : Uncut (signedNumber op value kind).text := by
  have hblank : Balanced " " := fun _ => rfl
  have hsigned := ((balanced_unarySpelling op).append hblank).append h.bracketless.balanced
  refine .apply ?_ (List.forall_mem_singleton.mpr hsigned)
  cases kind <;> exact .colonless (by decide) rfl

theorem uncut_binary (op : BinaryOp) (hleft : Uncut left.text) (hright : Uncut right.text)
    (hleft' : Balanced left.text) (hright' : Balanced right.text) :
    Uncut (binary op left right).text := by
  have hblank : Uncut " " := .colonless (by decide) rfl
  have hpoint : Uncut "." := .colonless (by decide) rfl
  have hspelling : Uncut op.spelling := by cases op <;> exact .colonless (by decide) rfl
  have hmethod : Uncut op.method := by cases op <;> exact .colonless (by decide) rfl
  unfold binary
  split_ifs
  · exact (((hleft.append hblank).append hspelling).append hblank).append hright
  · exact .apply hmethod (by simp [hleft', hright'])
  · exact (hleft.append hpoint).append hright
  · exact .method hleft hmethod (List.forall_mem_singleton.mpr hright')

theorem uncut_unary (op : UnaryOp) (trailing initializing : Bool) (h : Uncut value.text)
    (hvalue : Balanced value.text) : Uncut (unary op trailing initializing value).text := by
  unfold unary
  split
  · exact h
  · rename_i name hname
    have huncut : Uncut name := by
      cases op <;> cases trailing <;> cases initializing <;> cases hname <;>
        exact .colonless (by decide) rfl
    split_ifs
    · exact .apply huncut (List.forall_mem_singleton.mpr hvalue)
    · exact .method h huncut (List.forall_mem_nil _)

theorem uncut_sampleChain {name chain : String} {args : List String}
    (hfirst : ∀ text ∈ args.head?, Uncut text) (h : ∀ text ∈ args, Balanced text)
    (hchain : sampleChain? name args = some chain) : Uncut chain := by
  have hsample {resource coordinate : String} (hresource : Uncut resource)
      (hcoordinate : Balanced coordinate) :
      Uncut (Script.method resource "sample" [coordinate]) :=
    .method hresource (.colonless (by decide) rfl) (List.forall_mem_singleton.mpr hcoordinate)
  obtain ⟨call, -, hcall⟩ := Option.bind_eq_some_iff.mp hchain
  split at hcall <;> cases hcall <;> simp only [List.forall_mem_cons] at h <;>
    have hresource := hfirst _ rfl
  · exact hsample hresource h.2.1
  · exact .method (hsample hresource h.2.1) (.colonless (by decide) rfl) (by simpa using h.2.2.1)
  · exact .method (hsample hresource h.2.1) (.colonless (by decide) rfl) (by simpa using h.2.2.1)
  · exact .method (hsample hresource h.2.1) (.colonless (by decide) rfl)
      (by simp [h.2.2.1, h.2.2.2.1])
  · have hfalse : Balanced "false" := fun _ => rfl
    exact .method (hsample hresource h.2.1) (.colonless (by decide) rfl)
      (List.forall_mem_singleton.mpr hfalse)

theorem uncut_call {name : String} {fragments : List Fragment} (hname : Uncut name)
    (huncut : ∀ fragment ∈ fragments, Uncut fragment.text)
    (h : ∀ fragment ∈ fragments, Balanced fragment.text) : Uncut (call name fragments).text := by
  have htexts : ∀ text ∈ Fragment.texts fragments, Balanced text := List.forall_mem_map.mpr h
  have hfirst : ∀ text ∈ Fragment.texts fragments, Uncut text := List.forall_mem_map.mpr huncut
  unfold call
  split
  · rename_i chain hchain
    exact uncut_sampleChain (fun text ht => hfirst text (List.mem_of_mem_head? ht)) htexts hchain
  · exact .apply hname htexts

theorem uncut_link {element : Element Fragment} (huncut : Uncut element.value.text)
    (h : Balanced element.value.text) : Uncut (link element).text := by
  have hpoint : Uncut "." := .colonless (by decide) rfl
  cases element with
  | member value => exact hpoint.append huncut
  | index value =>
    have hvalue : ∀ text ∈ [value.text], Balanced text := List.forall_mem_singleton.mpr h
    simp only [link]
    split
    · exact .bracketed hvalue
    · exact hpoint.append (.apply (.colonless (by decide) rfl) hvalue)

theorem uncut_binding {name type : String} {value : Option Fragment} (hname : PlainText name)
    (htype : PlainText type) (huncut : ∀ fragment ∈ value, Uncut fragment.text)
    (h : ∀ fragment ∈ value, Balanced fragment.text) (isConverted mutable : Bool) :
    Uncut (binding name type value isConverted mutable).text := by
  have hequals : Uncut " = " := .colonless (by decide) rfl
  refine ((hname.uncut.append hequals).append ?_).append ?_
  · cases value with
    | none => exact .apply htype.uncut (List.forall_mem_nil _)
    | some value =>
      cases isConverted with
      | true => exact huncut value rfl
      | false => exact .apply htype.uncut (List.forall_mem_singleton.mpr (h value rfl))
  · cases mutable <;> exact .colonless (by decide) rfl

theorem uncut_uniform (reference : Bool) {name type : String} (hname : PlainText name)
    (htype : PlainText type) : Uncut (uniform reference name type).text := by
  refine .colonless ?_
    (balanced_uniform reference hname.bracketless.balanced htype.bracketless.balanced [])
  have hname := hname ':' List.mem_cons_self
  have htype := htype ':' List.mem_cons_self
  unfold uniform uniformValue resource?
  split_ifs <;> simp [Script.apply, Script.join, Script.literal, Script.bracketed, hname, htype]

theorem uncut_varying {name type : String} (hname : PlainText name) (htype : PlainText type) :
    Uncut (varying name type).text := by
  refine .colonless ?_ (balanced_varying hname.bracketless.balanced htype.bracketless.balanced [])
  have hname := hname ':' List.mem_cons_self
  have htype := htype ':' List.mem_cons_self
  simp [varying, Script.apply, Script.join, Script.literal, hname, htype]

/-- A conditional shows nothing outside brackets but the names of its links. -/
theorem uncut_conditional (depth : Nat) {condition body : Fragment}
    {alternates : List (Option Fragment × Fragment)} (hcondition : Balanced condition.text)
    (hbody : Balanced body.text)
    (h : ∀ branch ∈ alternates, (∀ test ∈ branch.1, Balanced test.text) ∧ Balanced branch.2.text) :
    Uncut (conditional depth condition body alternates).text := by
  have hpoint : Uncut "." := .colonless (by decide) rfl
  refine .append (.apply (.colonless (by decide) rfl) ?_) (.joined ?_)
  · simp [hcondition, hbody.thunk depth]
  · rw [Fragment.texts, List.map_map, List.forall_mem_map]
    rintro ⟨test, branch⟩ hmem
    obtain ⟨htest, hbranch⟩ := h _ hmem
    cases test with
    | none =>
      refine hpoint.append (.apply (.colonless (by decide) rfl) ?_)
      exact List.forall_mem_singleton.mpr (hbranch.thunk depth)
    | some test =>
      refine hpoint.append (.apply (.colonless (by decide) rfl) ?_)
      simp [htest test rfl, hbranch.thunk depth]

theorem uncut_arm (depth : Nat) {arm : Arm Fragment Fragment}
    (hlabels : ∀ label ∈ arm.labels, Balanced label.text)
    (hbody : ∀ body ∈ arm.body?, Balanced body.text) : Uncut (Form.arm depth arm).text := by
  have hpoint : Uncut "." := .colonless (by decide) rfl
  have hthunk : Balanced (Script.thunk depth ((arm.body?.map Fragment.text).getD "")) := by
    refine .thunk depth ?_
    cases hopt : arm.body? with
    | none => exact fun _ => rfl
    | some body => exact hbody body hopt
  cases arm with
  | cases labels body closed =>
    refine hpoint.append (.apply (.colonless (by decide) rfl) ?_)
    rw [List.forall_mem_append, List.forall_mem_singleton]
    exact ⟨List.forall_mem_map.mpr hlabels, hthunk⟩
  | default body =>
    refine hpoint.append (.apply (.colonless (by decide) rfl) ?_)
    exact List.forall_mem_singleton.mpr hthunk

theorem uncut_switch (depth : Nat) {discriminant : Fragment}
    {cases : List (Option Fragment × Option Fragment)} (h : Balanced discriminant.text)
    (harms : ∀ arm ∈ Arm.group [] cases, Uncut (Form.arm (depth + 1) arm).text) :
    Uncut (switch depth discriminant cases).text := by
  have hline : Uncut "\n" := .colonless (by decide) rfl
  have hswitch : Uncut (Script.apply "Switch" [discriminant.text]) :=
    .apply (.colonless (by decide) rfl) (List.forall_mem_singleton.mpr h)
  refine ((hswitch.append hline).append (.tabs _)).append (.joined ?_)
  rw [Fragment.texts, List.map_map]
  exact List.forall_mem_map.mpr harms

end Form

/-- A plain node has no cut in its text. -/
theorem uncut_emit {node : Node} (h : node.Plain) (context : Context) :
    Uncut (emit context node).text := by
  induction node using Node.parts_induction generalizing context with
  | step node ih =>
  have huncut : ∀ part ∈ node.parts, ∀ context, Uncut (emit context part).text :=
    fun part hp => ih part hp (h.part hp)
  have hbalanced : ∀ part ∈ node.parts, part.EmitsBalanced :=
    fun part hp => (h.part hp).balanced
  cases node with
  | number value kind =>
    rw [emit]
    exact Form.uncut_number (h.own List.mem_cons_self) kind
  | string value =>
    rw [emit]
    exact (h.own List.mem_cons_self).uncut.literal
  | accessor property =>
    rw [emit]
    exact (h.own List.mem_cons_self).uncut.orUnknown
  | chain object elements =>
    rw [emit, emitElements_eq_map]
    refine (huncut object List.mem_cons_self context).append (.joined ?_)
    rw [Fragment.texts, List.map_map, List.forall_mem_map]
    intro element he
    have hmem : element.value ∈ (Node.chain object elements).parts :=
      List.mem_cons_of_mem _ (List.mem_map_of_mem he)
    have hvalue := huncut _ hmem context
    have hvalue' := hbalanced _ hmem context
    cases element <;> exact Form.uncut_link hvalue hvalue'
  | operator op left right =>
    have hleft : left ∈ (Node.operator op left right).parts := by simp [Node.parts]
    have hright : right ∈ (Node.operator op left right).parts := by simp [Node.parts]
    rw [emit]
    exact Form.uncut_binary op (huncut left hleft context) (huncut right hright context)
      (hbalanced left hleft context) (hbalanced right hright context)
  | unary op operand trailing =>
    have hoperand : operand ∈ (Node.unary op operand trailing).parts := List.mem_cons_self
    obtain ⟨value, kind, rfl, he⟩ | ⟨-, he⟩ := emit_unary_cases context op operand trailing
    · rw [he]
      exact Form.uncut_signedNumber op ((h.part hoperand).own List.mem_cons_self) kind
    · rw [he]
      exact Form.uncut_unary op trailing _ (huncut operand hoperand context)
        (hbalanced operand hoperand context)
  | ternary condition left right =>
    rw [emit]
    refine .apply (.colonless (by decide) rfl) ?_
    simp [hbalanced condition (by simp [Node.parts]) context,
      hbalanced left (by simp [Node.parts]) context, hbalanced right (by simp [Node.parts]) context]
  | call name args =>
    rw [emit, emitAll_eq_map]
    refine Form.uncut_call (h.own List.mem_cons_self).uncut ?_ ?_
    · exact List.forall_mem_map.mpr fun arg ha => huncut arg ha context
    · exact List.forall_mem_map.mpr fun arg ha => hbalanced arg ha context
  | «return» value =>
    have hreturn : Uncut "return" := .colonless (by decide) rfl
    have hstart : Uncut "return " := .colonless (by decide) rfl
    rw [emit, emitOptional_eq_map]
    cases value with
    | none => exact hreturn
    | some value => exact hstart.append (huncut value List.mem_cons_self context)
  | «break» | «continue» | discard =>
    rw [emit]
    exact .colonless (by decide) rfl
  | bindings declarators =>
    have hconst : Uncut "const " := .colonless (by decide) rfl
    rw [emit, emitDeclarators_eq_map]
    refine hconst.append (.intercalate (.colonless (by decide) rfl) ?_)
    rw [Fragment.texts, List.map_map, List.forall_mem_map]
    intro declarator hd
    have hown : ∀ text ∈ [declarator.name, declarator.type], PlainText text :=
      fun text ht => h.own (List.mem_flatMap.mpr ⟨declarator, hd, ht⟩)
    have hvalue : ∀ value ∈ declarator.value, value ∈ (Node.bindings declarators).parts :=
      fun value hv => List.mem_filterMap.mpr ⟨declarator, hd, hv⟩
    obtain ⟨name, type, value, mutable⟩ := declarator
    rw [Function.comp_apply, emitDeclarator, emitOptional_eq_map]
    refine Form.uncut_binding (hown _ (by simp)) (hown _ (by simp)) ?_ ?_ _ _
    · exact Option.forall_mem_map.mpr fun node hn => huncut node (hvalue node hn) _
    · exact Option.forall_mem_map.mpr fun node hn => hbalanced node (hvalue node hn) _
  | uniform name type =>
    rw [emit]
    exact Form.uncut_uniform _ (h.own (by simp [Node.ownStrings]))
      (h.own (by simp [Node.ownStrings]))
  | varying name type =>
    rw [emit]
    exact Form.uncut_varying (h.own (by simp [Node.ownStrings]))
      (h.own (by simp [Node.ownStrings]))
  | function | unknown =>
    rw [emit]
    exact .unknownStatement
  | conditional condition body alternates =>
    rw [emit, emitAlternates_eq_map, emitAll_eq_map, ofFragments_eq_emitBody]
    refine Form.uncut_conditional _ (hbalanced condition (by simp [Node.parts]) context)
      (balanced_emitBody (fun node hn => hbalanced node (by simp [Node.parts, hn])) _) ?_
    rw [List.forall_mem_map]
    intro branch hb
    have hpart : ∀ part ∈ branch.parts, part.EmitsBalanced := fun part hp => hbalanced part
      (List.mem_cons_of_mem _ (List.mem_append_right _ (List.mem_flatMap.mpr ⟨branch, hb, hp⟩)))
    obtain ⟨test, nodes⟩ := branch
    rw [emitAlternate, emitOptional_eq_map, emitAll_eq_map, ofFragments_eq_emitBody]
    constructor
    · exact balanced_optional
        (fun node hn => hpart node (List.mem_append_left _ (Option.mem_toList.mpr hn))) context
    · exact balanced_emitBody (fun node hn => hpart node (List.mem_append_right _ hn)) _
  | switch discriminant cases =>
    have hparts : ∀ part ∈ cases.flatMap Branch.parts, part.EmitsBalanced :=
      fun part hp => hbalanced part (List.mem_cons_of_mem _ hp)
    rw [emit]
    refine Form.uncut_switch _ (hbalanced discriminant List.mem_cons_self context) ?_
    rw [group_emitCases, List.forall_mem_map]
    intro arm harm
    refine Form.uncut_arm _ ?_ ?_
    · rw [Arm.labels_map, List.forall_mem_map]
      exact fun label hl => hparts label (Branch.label_mem_parts harm hl) _
    · rw [Arm.body?_map, Option.forall_mem_map]
      exact fun nodes hb => balanced_emitBody
        (fun node hn => hparts node (Branch.body_mem_parts harm hb hn)) _
  | loop initial condition afterthought body =>
    have hinner : ∀ part ∈ (Node.loop initial condition afterthought body).parts,
        part.EmitsBalanced ∧ ∀ inner ∈ part.parts, inner.EmitsBalanced :=
      fun part hp => ⟨hbalanced part hp, fun inner hi => ((h.part hp).part hi).balanced⟩
    obtain ⟨args, htext, hargs⟩ | ⟨content, htext, hcontent⟩ :=
      emitLoop_cases h.bracketless hinner context
    · rw [htext]
      exact .apply (.colonless (by decide) rfl) hargs
    · rw [htext]
      exact .block _ hcontent

/-! ## Reading an object -/

/-- The characters behind the last blank. -/
def lastWord (chars : List Char) : List Char :=
  (chars.reverse.takeWhile (· != ' ')).reverse

/-- The entries of an object that has been cut at its colons. A piece has the value of an entry and
the key of the next one, with a comma between them; a blank ends the last piece. -/
def entriesOf : List (List Char) → List (String × String)
  | key :: value :: rest =>
    let further := if rest.isEmpty then 1 else (lastWord value).length + 2
    (String.ofList (lastWord key), String.ofList ((value.drop 1).rdrop further)) ::
      entriesOf (value :: rest)
  | _ => []

/-- The entries of the object that the characters start with. -/
def readObject (chars : List Char) : List (String × String) :=
  entriesOf (pieces [] [] (chars.drop 1))

/-- The pieces of an object from its first value on. -/
def valuePieces (value : String) : List (String × String) → List (List Char)
  | [] => [(" " ++ value ++ " ").toList]
  | (key, next) :: more => (" " ++ value ++ ", " ++ key).toList :: valuePieces next more

theorem takeWhile_append_stop {chars rest : List Char} {stop : Char} (h : stop ∉ chars) :
    (chars ++ stop :: rest).takeWhile (· != stop) = chars := by
  have hchars : ∀ c ∈ chars, (c != stop) = true := by
    intro c hc
    rw [bne_iff_ne]
    rintro rfl
    exact h hc
  rw [List.takeWhile_append_of_pos hchars]
  simp

theorem lastWord_append {word : List Char} (h : ' ' ∉ word) (before : List Char) :
    lastWord (before ++ ' ' :: word) = word := by
  have hword : ' ' ∉ word.reverse := fun hc => h (List.mem_reverse.mp hc)
  rw [lastWord, List.reverse_append, List.reverse_cons, List.append_assoc, List.singleton_append,
    takeWhile_append_stop hword, List.reverse_reverse]

/-- What the entries of an object need for it to be read back. -/
def Separable (settings : List (String × String)) : Prop :=
  ∀ setting ∈ settings, Uncut setting.1 ∧ ' ' ∉ setting.1.toList ∧ Uncut setting.2

theorem entriesOf_valuePieces {settings : List (String × String)} (h : Separable settings)
    (first : List Char) (value : String) :
    entriesOf (first :: valuePieces value settings) =
      (String.ofList (lastWord first), value) :: settings := by
  induction settings generalizing first value with
  | nil =>
    have hvalue : (value.toList ++ [' ']).rdrop 1 = value.toList :=
      List.rdrop_append_length
    simp [valuePieces, entriesOf, hvalue]
  | cons setting more ih =>
    obtain ⟨key, next⟩ := setting
    obtain ⟨⟨-, hkey, -⟩, hmore⟩ := List.forall_mem_cons.mp h
    have hword : lastWord (" " ++ value ++ ", " ++ key).toList = key.toList := by
      simpa using lastWord_append hkey (' ' :: (value.toList ++ [',']))
    have hvalue : (value.toList ++ (',' :: ' ' :: key.toList)).rdrop (key.toList.length + 2) =
        value.toList :=
      List.rdrop_append_length
    have hrest : (valuePieces next more).isEmpty = false := by cases more <;> rfl
    rw [valuePieces, entriesOf, ih hmore, hword, hrest]
    simp [hvalue]

/-- An entry has one cut, behind its key. -/
theorem pieces_entry {key value : String} (hkey : Uncut key) (hvalue : Uncut value)
    (current rest : List Char) :
    pieces [] current ((Script.entry key value).toList ++ rest) =
      (current ++ key.toList) :: pieces [] (" " ++ value).toList rest := by
  have hblank : Uncut (" " ++ value) := Uncut.append (.colonless (by decide) rfl) hvalue
  calc pieces [] current ((Script.entry key value).toList ++ rest)
      = pieces [] current (key.toList ++ (':' :: ((" " ++ value).toList ++ rest))) := by
        simp [Script.entry]
    _ = pieces [] (current ++ key.toList) (':' :: ((" " ++ value).toList ++ rest)) := hkey _ _
    _ = (current ++ key.toList) :: pieces [] [] ((" " ++ value).toList ++ rest) := by
        rw [pieces, if_pos ⟨rfl, rfl⟩]
    _ = (current ++ key.toList) :: pieces [] (" " ++ value).toList rest := by
        rw [hblank [] rest, List.nil_append]

/-- The text of the entries of an object. -/
def entryTexts (settings : List (String × String)) : List String :=
  settings.map fun setting => Script.entry setting.1 setting.2

theorem pieces_entries {key value : String} {settings : List (String × String)}
    (h : Separable ((key, value) :: settings)) (current rest : List Char) :
    pieces [] current
        ((Script.join (entryTexts ((key, value) :: settings)) ++ " \x7d").toList ++ rest) =
      (current ++ key.toList) :: valuePieces value settings := by
  induction settings generalizing key value current with
  | nil =>
    obtain ⟨⟨hkey, -, hvalue⟩, -⟩ := List.forall_mem_cons.mp h
    have hblank : Uncut " " := .colonless (by decide) rfl
    calc _ = pieces [] current ((Script.entry key value).toList ++
            (" ".toList ++ ('\x7d' :: rest))) := by simp [entryTexts, Script.join]
      _ = (current ++ key.toList) ::
            pieces [] (" " ++ value).toList (" ".toList ++ ('\x7d' :: rest)) :=
          pieces_entry hkey hvalue _ _
      _ = (current ++ key.toList) :: [(" " ++ value).toList ++ " ".toList] := by
          rw [hblank]
          rfl
      _ = (current ++ key.toList) :: valuePieces value [] := by simp [valuePieces]
  | cons setting more ih =>
    obtain ⟨next, following⟩ := setting
    obtain ⟨⟨hkey, -, hvalue⟩, hmore⟩ := List.forall_mem_cons.mp h
    have hcomma : Uncut ", " := .colonless (by decide) rfl
    let others := (Script.join (entryTexts ((next, following) :: more)) ++ " \x7d").toList ++ rest
    calc _ = pieces [] current ((Script.entry key value).toList ++ (", ".toList ++ others)) := by
          simp [others, entryTexts, Script.join, String.intercalate_cons_cons]
      _ = (current ++ key.toList) :: pieces [] ((" " ++ value).toList ++ ", ".toList) others := by
          rw [pieces_entry hkey hvalue, hcomma]
      _ = (current ++ key.toList) :: valuePieces value ((next, following) :: more) := by
          rw [ih hmore, valuePieces]
          simp

/-- The entries of an object are read back from its text, whatever follows it. -/
theorem readObject_braced {settings : List (String × String)} (h : Separable settings)
    (hne : settings ≠ []) (rest : List Char) :
    readObject ((Script.braced (entryTexts settings)).toList ++ rest) = settings := by
  cases settings with
  | nil => exact absurd rfl hne
  | cons setting more =>
    obtain ⟨key, value⟩ := setting
    obtain ⟨⟨-, hkey, -⟩, hmore⟩ := List.forall_mem_cons.mp h
    have hblank : Uncut " " := .colonless (by decide) rfl
    have hchars : ((Script.braced (entryTexts ((key, value) :: more))).toList ++ rest).drop 1 =
        " ".toList ++
          ((Script.join (entryTexts ((key, value) :: more)) ++ " \x7d").toList ++ rest) := by
      simp [Script.braced]
    have hword : lastWord ([] ++ " ".toList ++ key.toList) = key.toList := lastWord_append hkey []
    rw [readObject, hchars, hblank, pieces_entries h, entriesOf_valuePieces hmore, hword,
      String.ofList_toList]

end ShaderScript
