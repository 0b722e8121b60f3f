import StackLift.Proofs.Selectors
import StackLift.Proofs.Starts
import StackLift.Proofs.Words

namespace StackLift

/-- Mnemonics and the names of services are words, and they tell apart what they name. -/
structure InstructionSet.Legible (isa : InstructionSet) : Prop where
  mnemonics : ∀ opcode ∈ isa.opcodes, isWord opcode.mnemonic = true
  services : ∀ call ∈ isa.calls, isWord call.signature.name = true
  nodup_mnemonics : (isa.opcodes.map Opcode.mnemonic).Nodup
  nodup_services : (isa.calls.map fun call => call.signature.name).Nodup

theorem InstructionSet.reference_legible : reference.Legible :=
  ⟨by decide, by decide, by decide, by decide⟩

theorem InstructionSet.mem_calls {isa : InstructionSet} {call : Call}
    (h : isa.signature? call.selector = some call.signature) : call ∈ isa.calls := by
  obtain ⟨found, hfound, hsignature⟩ := Option.map_eq_some_iff.1 h
  have hselector : found.selector = call.selector := by simpa using List.find?_some hfound
  have hsame : found = call := by
    cases found
    cases call
    cases hselector
    cases hsignature
    rfl
  exact hsame ▸ List.mem_of_find?_eq_some hfound

structure VariableTable.Legible (table : VariableTable) : Prop where
  names : ∀ v ∈ table.toList, isWord v.name = true
  nodup_names : (table.toList.map Variable.name).Nodup

theorem VariableTable.Legible.index_eq {table : VariableTable} (h : table.Legible) {i j : Nat}
    {v w : Variable} (hv : table.get? i = some v) (hw : table.get? j = some w)
    (hname : v.name = w.name) : i = j := by
  obtain ⟨hlt, _⟩ := List.getElem?_eq_some_iff.1 hv
  apply (List.getElem?_inj (by rwa [List.length_map]) h.nodup_names).1
  rw [VariableTable.get?] at hv hw
  rw [List.getElem?_map, List.getElem?_map, hv, hw]
  exact congrArg some hname

theorem Register.name_injective : Function.Injective Register.name := fun r s h =>
  List.inj_on_of_nodup_map (by decide : (Register.all.map Register.name).Nodup)
    (Register.mem_all r) (Register.mem_all s) h

namespace Operand

variable {form : OperandForm} {word word' : UInt64} {operand operand' : Operand}

theorem eq_none_iff (h : ofField? form word = some operand) :
    operand = .none ↔ form = .none := by
  cases form with
  | none =>
    cases h
    simp
  | register =>
    obtain ⟨r, _, rfl⟩ := Option.map_eq_some_iff.1 h
    simp
  | dword | qword =>
    cases h
    simp

theorem isWord_text (h : operand ≠ .none) : isWord operand.text = true := by
  cases operand with
  | none => exact absurd rfl h
  | register r => exact isWord_name r
  | immediate value => exact isWord_hexPrefixed 0 value.toNat

theorem eq_of_text (h : ofField? form word = some operand)
    (h' : ofField? form word' = some operand') (htext : operand.text = operand'.text) :
    operand = operand' := by
  cases form with
  | none =>
    cases h
    cases h'
    rfl
  | register =>
    obtain ⟨r, _, rfl⟩ := Option.map_eq_some_iff.1 h
    obtain ⟨s, _, rfl⟩ := Option.map_eq_some_iff.1 h'
    exact congrArg register (Register.name_injective htext)
  | dword | qword =>
    cases h
    cases h'
    exact congrArg immediate (UInt64.toNat_inj.1 (hexPrefixed_injective 0 htext))

/-- The texts of the arguments, behind that of the operand if there is one. -/
def listed (operand : Operand) (texts : List String) : List String :=
  if operand = .none then texts else operand.text :: texts

end Operand

def commaBefore (texts : List String) : List Char :=
  texts.flatMap fun text => ',' :: text.toList

theorem toList_intercalate_cons (first : String) (rest : List String) :
    (",".intercalate (first :: rest)).toList = first.toList ++ commaBefore rest := by
  rw [String.toList_intercalate, commaBefore]
  induction rest generalizing first with
  | nil => simp
  | cons second rest ih =>
    rw [List.map_cons, List.map_cons, List.intercalate_cons_cons, ← List.map_cons, ih,
      List.flatMap_cons, List.append_assoc]
    rfl

/-- The text can end an argument: a comma follows, or the bracket behind the last argument, or
nothing at all. -/
def EndsArgument (l : List Char) : Prop :=
  ∀ c ∈ l.head?, c = ',' ∨ c = ')'

theorem EndsArgument.endsWord {l : List Char} (h : EndsArgument l) : EndsWord l := by
  intro c hc
  rcases h c hc with rfl | rfl <;> decide

theorem EndsArgument.ne_cons {l : List Char} (h : EndsArgument l) {c : Char} {rest : List Char}
    (hcomma : c ≠ ',') (hbracket : c ≠ ')') : l ≠ c :: rest := by
  rintro rfl
  exact (h c rfl).elim hcomma hbracket

theorem endsArgument_commaBefore (texts : List String) (rest : List Char) :
    EndsArgument (commaBefore texts ++ ')' :: rest) := by
  intro c hc
  cases texts <;> cases hc <;> simp

def BeginsWithWord (s : String) : Prop :=
  ∃ word rest, isWord word = true ∧ s.toList = word.toList ++ rest

theorem beginsWithWord_of_isWord {s : String} (h : isWord s = true) : BeginsWithWord s :=
  ⟨s, [], h, (List.append_nil _).symm⟩

theorem BeginsWithWord.append_ne {s : String} (h : BeginsWithWord s) {c : Char}
    {rest behind : List Char} (hc : inWord c = false) : s.toList ++ rest ≠ c :: behind := by
  intro heq
  obtain ⟨word, after, hword, hs⟩ := h
  obtain ⟨hne, hall⟩ := isWord_iff.1 hword
  cases hlist : word.toList with
  | nil => exact hne hlist
  | cons first others =>
    rw [hs, hlist] at heq
    obtain ⟨rfl, _⟩ := List.cons.inj heq
    have hin := hall first (hlist ▸ List.mem_cons_self)
    rw [hc] at hin
    cases hin

theorem commaBefore_eq_of_intercalate_eq {texts texts' : List String} {rest rest' : List Char}
    (h : ∀ text ∈ texts, BeginsWithWord text) (h' : ∀ text ∈ texts', BeginsWithWord text)
    (heq : (",".intercalate texts).toList ++ ')' :: rest =
      (",".intercalate texts').toList ++ ')' :: rest') :
    commaBefore texts ++ ')' :: rest = commaBefore texts' ++ ')' :: rest' := by
  cases texts with
  | nil =>
    cases texts' with
    | nil => exact heq
    | cons first' others' =>
      rw [toList_intercalate_cons, List.append_assoc] at heq
      exact absurd heq.symm ((h' first' List.mem_cons_self).append_ne (by decide))
  | cons first others =>
    rw [toList_intercalate_cons, List.append_assoc] at heq
    cases texts' with
    | nil => exact absurd heq ((h first List.mem_cons_self).append_ne (by decide))
    | cons first' others' =>
      rw [toList_intercalate_cons, List.append_assoc] at heq
      simpa [commaBefore] using heq

/-- Behind one opcode the operand can be told from the arguments. -/
theorem Operand.eq_of_commaBefore {form : OperandForm} {word word' : UInt64}
    {operand operand' : Operand} {texts texts' : List String} {rest rest' : List Char}
    (h : ofField? form word = some operand) (h' : ofField? form word' = some operand')
    (heq : commaBefore (operand.listed texts) ++ ')' :: rest =
      commaBefore (operand'.listed texts') ++ ')' :: rest') :
    operand = operand' ∧
      commaBefore texts ++ ')' :: rest = commaBefore texts' ++ ')' :: rest' := by
  by_cases hform : form = .none
  · obtain rfl := (eq_none_iff h).2 hform
    obtain rfl := (eq_none_iff h').2 hform
    exact ⟨rfl, heq⟩
  · have hsome : operand ≠ .none := fun hnone => hform ((eq_none_iff h).1 hnone)
    have hsome' : operand' ≠ .none := fun hnone => hform ((eq_none_iff h').1 hnone)
    rw [listed, if_neg hsome, listed, if_neg hsome', commaBefore, commaBefore, List.flatMap_cons,
      List.flatMap_cons, List.cons_append, List.cons_append, List.cons_append, List.cons_append,
      List.cons.injEq, List.append_assoc, List.append_assoc] at heq
    obtain ⟨htext, hrest⟩ := eq_of_word_append_eq (isWord_text hsome) (isWord_text hsome')
      (endsArgument_commaBefore texts rest).endsWord
      (endsArgument_commaBefore texts' rest').endsWord heq.2
    exact ⟨eq_of_text h h' htext, hrest⟩

namespace Expression

mutual

/-- The expression with its offsets and the sites of its reads wiped out. -/
def unplaced : Expression → Expression
  | .instruction _ opcode operand arguments => .instruction 0 opcode operand (unplacedAll arguments)
  | .call _ opcode service arguments => .call 0 opcode service (unplacedAll arguments)
  | .read index _ => .read index ⟨0, 0⟩

def unplacedAll : List Expression → List Expression
  | [] => []
  | expression :: rest => unplaced expression :: unplacedAll rest

end

mutual

theorem text_unplaced (table : VariableTable) : (e : Expression) →
    e.unplaced.text table = e.text table
  | .instruction offset opcode operand arguments => by
    rw [unplaced, text, text, textsOfAll_unplacedAll table arguments]
  | .call offset opcode service arguments => by
    rw [unplaced, text, text, textsOfAll_unplacedAll table arguments]
  | .read index site => by
    rw [unplaced, text, text]

theorem textsOfAll_unplacedAll (table : VariableTable) : (l : List Expression) →
    textsOfAll table (unplacedAll l) = textsOfAll table l
  | [] => by rw [unplacedAll]
  | first :: rest => by
    rw [unplacedAll, textsOfAll, textsOfAll, text_unplaced table first,
      textsOfAll_unplacedAll table rest]

end

/-- The root is an instruction or a call of the set, or a variable of the table. -/
inductive Rooted (isa : InstructionSet) (table : VariableTable) : Expression → Prop
  | instruction {offset opcode operand arguments word} : opcode ∈ isa.opcodes →
      Operand.ofField? opcode.form word = some operand →
      Rooted isa table (.instruction offset opcode operand arguments)
  | call {offset opcode service arguments} : opcode ∈ isa.opcodes →
      isa.signature? service.selector = some service.signature →
      Rooted isa table (.call offset opcode service arguments)
  | read {index site v} : table.get? index = some v → Rooted isa table (.read index site)

def Readable (isa : InstructionSet) (table : VariableTable) (e : Expression) : Prop :=
  ∀ part, e.Part part → part.Rooted isa table

def leading (table : VariableTable) : Expression → String
  | .instruction _ opcode _ _ => opcode.mnemonic
  | .call _ opcode _ _ => opcode.mnemonic
  | .read index _ => (table.get? index).elim "" Variable.name

def trailing (table : VariableTable) : Expression → List Char
  | .instruction _ _ operand arguments =>
    '(' :: ((",".intercalate (operand.listed (textsOfAll table arguments))).toList ++ [')'])
  | .call _ _ service arguments =>
    '.' :: (service.signature.name.toList ++
      '(' :: ((",".intercalate (textsOfAll table arguments)).toList ++ [')']))
  | .read _ _ => []

section

variable {isa : InstructionSet} {table : VariableTable} {e e' : Expression}
  {rest rest' : List Char}

theorem Readable.argument {slot : Nat} {child : Expression} (h : e.Readable isa table)
    (hchild : e.arguments[slot]? = some child) : child.Readable isa table :=
  fun _ hpart => h _ ((Part.whole.argument hchild).trans hpart)

theorem Readable.arguments (h : e.Readable isa table) :
    ∀ child ∈ e.arguments, child.Readable isa table := by
  intro child hchild
  obtain ⟨slot, hslot⟩ := List.getElem?_of_mem hchild
  exact h.argument hslot

theorem Rooted.toList_text (h : e.Rooted isa table) :
    (e.text table).toList = (e.leading table).toList ++ e.trailing table := by
  cases h with
  | instruction =>
    rw [text, leading, trailing]
    simp [Operand.listed]
  | call =>
    rw [text, leading, trailing]
    simp
  | read hv =>
    rw [text, leading, trailing, hv, List.append_nil]
    rfl

theorem endsWord_trailing (hrest : EndsArgument rest) : EndsWord (e.trailing table ++ rest) := by
  cases e with
  | instruction => exact endsWord_cons (by decide)
  | call => exact endsWord_cons (by decide)
  | read => exact hrest.endsWord

variable (hisa : isa.Legible) (htable : table.Legible)
include hisa htable

theorem Rooted.isWord_leading (h : e.Rooted isa table) : isWord (e.leading table) = true := by
  cases h with
  | instruction hopcode => exact hisa.mnemonics _ hopcode
  | call hopcode => exact hisa.mnemonics _ hopcode
  | read hv =>
    rw [leading, hv]
    exact htable.names _ (List.mem_of_getElem? hv)

theorem Rooted.beginsWithWord (h : e.Rooted isa table) : BeginsWithWord (e.text table) :=
  ⟨_, _, h.isWord_leading hisa htable, h.toList_text⟩

theorem beginsWithWord_textsOfAll : {l : List Expression} → (∀ e ∈ l, e.Readable isa table) →
    ∀ text ∈ textsOfAll table l, BeginsWithWord text
  | [], _, _, h => by
    rw [textsOfAll] at h
    cases h
  | first :: others, hall, text, h => by
    rw [textsOfAll] at h
    rcases List.mem_cons.1 h with rfl | h
    · exact (hall first List.mem_cons_self first .whole).beginsWithWord hisa htable
    · exact beginsWithWord_textsOfAll (fun e he => hall e (List.mem_cons_of_mem _ he)) text h

theorem beginsWithWord_listed (operand : Operand) {l : List Expression}
    (hall : ∀ e ∈ l, e.Readable isa table) :
    ∀ text ∈ operand.listed (textsOfAll table l), BeginsWithWord text := by
  intro text htext
  rw [Operand.listed] at htext
  split at htext
  · exact beginsWithWord_textsOfAll hisa htable hall text htext
  · next hsome =>
    rcases List.mem_cons.1 htext with rfl | htext
    · exact beginsWithWord_of_isWord (Operand.isWord_text hsome)
    · exact beginsWithWord_textsOfAll hisa htable hall text htext

theorem Rooted.eq_of_text (h : e.Rooted isa table) (h' : e'.Rooted isa table)
    (hrest : EndsArgument rest) (hrest' : EndsArgument rest')
    (heq : (e.text table).toList ++ rest = (e'.text table).toList ++ rest') :
    e.leading table = e'.leading table ∧
      e.trailing table ++ rest = e'.trailing table ++ rest' := by
  rw [h.toList_text, h'.toList_text, List.append_assoc, List.append_assoc] at heq
  exact eq_of_word_append_eq (h.isWord_leading hisa htable) (h'.isWord_leading hisa htable)
    (endsWord_trailing hrest) (endsWord_trailing hrest') heq

/-- Expressions of one root whose arguments print alike, up to what follows them. -/
inductive Alike (table : VariableTable) (rest rest' : List Char) : Expression → Expression → Prop
  | instruction {offset offset' opcode operand arguments arguments'} :
      commaBefore (textsOfAll table arguments) ++ ')' :: rest =
        commaBefore (textsOfAll table arguments') ++ ')' :: rest' →
      Alike table rest rest' (.instruction offset opcode operand arguments)
        (.instruction offset' opcode operand arguments')
  | call {offset offset' opcode service arguments arguments'} :
      commaBefore (textsOfAll table arguments) ++ ')' :: rest =
        commaBefore (textsOfAll table arguments') ++ ')' :: rest' →
      Alike table rest rest' (.call offset opcode service arguments)
        (.call offset' opcode service arguments')
  | read {index site site'} : rest = rest' →
      Alike table rest rest' (.read index site) (.read index site')

theorem Readable.alike (h : e.Readable isa table) (h' : e'.Readable isa table)
    (hrest : EndsArgument rest) (hrest' : EndsArgument rest')
    (heq : (e.text table).toList ++ rest = (e'.text table).toList ++ rest') :
    Alike table rest rest' e e' := by
  have hroot := h _ .whole
  have hroot' := h' _ .whole
  obtain ⟨hleading, htrailing⟩ := hroot.eq_of_text hisa htable hroot' hrest hrest' heq
  cases hroot with
  | instruction hopcode hoperand =>
    cases hroot' with
    | instruction hopcode' hoperand' =>
      obtain rfl := List.inj_on_of_nodup_map hisa.nodup_mnemonics hopcode hopcode' hleading
      simp only [trailing, List.cons_append, List.cons.injEq, List.append_assoc,
        List.nil_append, true_and] at htrailing
      have hlisted := commaBefore_eq_of_intercalate_eq
        (beginsWithWord_listed hisa htable _ h.arguments)
        (beginsWithWord_listed hisa htable _ h'.arguments) htrailing
      obtain ⟨rfl, harguments⟩ := Operand.eq_of_commaBefore hoperand hoperand' hlisted
      exact .instruction harguments
    | call => simp [trailing] at htrailing
    | read => exact absurd htrailing.symm (hrest'.ne_cons (by decide) (by decide))
  | call hopcode hservice =>
    cases hroot' with
    | instruction => simp [trailing] at htrailing
    | call hopcode' hservice' =>
      obtain rfl := List.inj_on_of_nodup_map hisa.nodup_mnemonics hopcode hopcode' hleading
      simp only [trailing, List.cons_append, List.cons.injEq, List.append_assoc,
        List.nil_append, true_and] at htrailing
      have hcall := InstructionSet.mem_calls hservice
      have hcall' := InstructionSet.mem_calls hservice'
      obtain ⟨hname, hbrackets⟩ := eq_of_word_append_eq (hisa.services _ hcall)
        (hisa.services _ hcall') (endsWord_cons (by decide)) (endsWord_cons (by decide)) htrailing
      obtain rfl := List.inj_on_of_nodup_map hisa.nodup_services hcall hcall' hname
      exact .call (commaBefore_eq_of_intercalate_eq
        (beginsWithWord_textsOfAll hisa htable h.arguments)
        (beginsWithWord_textsOfAll hisa htable h'.arguments) (List.cons.inj hbrackets).2)
    | read => exact absurd htrailing.symm (hrest'.ne_cons (by decide) (by decide))
  | read hv =>
    cases hroot' with
    | instruction => exact absurd htrailing (hrest.ne_cons (by decide) (by decide))
    | call => exact absurd htrailing (hrest.ne_cons (by decide) (by decide))
    | read hw =>
      simp only [leading, hv, hw] at hleading
      obtain rfl := htable.index_eq hv hw hleading
      exact .read htrailing

end

section

variable {isa : InstructionSet} {table : VariableTable}

mutual

/-- Expressions that print alike are the same up to their places, and so is what follows them. -/
theorem unplaced_eq_of_text (hisa : isa.Legible) (htable : table.Legible) :
    (e e' : Expression) → e.Readable isa table → e'.Readable isa table →
    ∀ {rest rest' : List Char}, EndsArgument rest → EndsArgument rest' →
      (e.text table).toList ++ rest = (e'.text table).toList ++ rest' →
      e.unplaced = e'.unplaced ∧ rest = rest'
  | .instruction offset opcode operand arguments, e', h, h', rest, rest', hrest, hrest', heq => by
    cases h.alike hisa htable h' hrest hrest' heq with | instruction harguments => ?_
    obtain ⟨hsame, hbehind⟩ :=
      unplacedAll_eq_of_texts hisa htable arguments _ h.arguments h'.arguments harguments
    rw [unplaced, unplaced, hsame]
    exact ⟨rfl, hbehind⟩
  | .call offset opcode service arguments, e', h, h', rest, rest', hrest, hrest', heq => by
    cases h.alike hisa htable h' hrest hrest' heq with | call harguments => ?_
    obtain ⟨hsame, hbehind⟩ :=
      unplacedAll_eq_of_texts hisa htable arguments _ h.arguments h'.arguments harguments
    rw [unplaced, unplaced, hsame]
    exact ⟨rfl, hbehind⟩
  | .read index site, e', h, h', rest, rest', hrest, hrest', heq => by
    cases h.alike hisa htable h' hrest hrest' heq with | read hbehind => ?_
    rw [unplaced, unplaced]
    exact ⟨rfl, hbehind⟩

theorem unplacedAll_eq_of_texts (hisa : isa.Legible) (htable : table.Legible) :
    (l l' : List Expression) → (∀ e ∈ l, e.Readable isa table) →
    (∀ e ∈ l', e.Readable isa table) → ∀ {rest rest' : List Char},
      commaBefore (textsOfAll table l) ++ ')' :: rest =
        commaBefore (textsOfAll table l') ++ ')' :: rest' →
      unplacedAll l = unplacedAll l' ∧ rest = rest'
  | [], [], _, _, rest, rest', heq => ⟨rfl, (List.cons.inj heq).2⟩
  | [], _ :: _, _, _, rest, rest', heq => by
    simp [textsOfAll, commaBefore] at heq
  | _ :: _, [], _, _, rest, rest', heq => by
    simp [textsOfAll, commaBefore] at heq
  | first :: others, first' :: others', h, h', rest, rest', heq => by
    simp only [textsOfAll, commaBefore, List.flatMap_cons, List.cons_append, List.cons.injEq,
      List.append_assoc, true_and] at heq
    obtain ⟨hfirst, hothers⟩ := unplaced_eq_of_text hisa htable first first'
      (h _ List.mem_cons_self) (h' _ List.mem_cons_self) (endsArgument_commaBefore _ rest)
      (endsArgument_commaBefore _ rest') heq
    obtain ⟨hsame, hbehind⟩ := unplacedAll_eq_of_texts hisa htable others others'
      (fun e he => h e (List.mem_cons_of_mem _ he)) (fun e he => h' e (List.mem_cons_of_mem _ he))
      hothers
    rw [unplacedAll, unplacedAll, hfirst, hsame]
    exact ⟨rfl, hbehind⟩

end

theorem text_eq_iff_of_readable (hisa : isa.Legible) (htable : table.Legible) {e e' : Expression}
    (h : e.Readable isa table) (h' : e'.Readable isa table) :
    e.text table = e'.text table ↔ e.unplaced = e'.unplaced := by
  constructor
  · intro htext
    have hnothing : EndsArgument [] := fun _ hc => nomatch hc
    exact (unplaced_eq_of_text hisa htable e e' h h' hnothing hnothing (by rw [htext])).1
  · intro hsame
    rw [← text_unplaced table e, hsame, text_unplaced]

end

end Expression

theorem Node.rooted_toExpression {isa : InstructionSet} {table : VariableTable} {node : Node}
    (hadmits : isa.Admits node.toInstruction)
    (hcall : ∀ call, node.call? = some call → isa.signature? call.selector = some call.signature)
    (arguments : List Expression) : (node.toExpression arguments).Rooted isa table := by
  obtain ⟨word, hword⟩ := hadmits.operand
  rw [toExpression]
  split
  · next call hsome => exact .call hadmits.opcode (hcall call hsome)
  · exact .instruction hadmits.opcode hword

namespace Graph

variable {graph : Graph} {start : UInt32} {listing : Listing}

theorem names_of_build (hbuild : (graph.build start).outcome = .ok listing) :
    listing.table.toList.map Variable.name =
      VariableTable.registers.toList.map Variable.name ++
        (graph.introductions graph.placement.stored).map Introduction.name := by
  have hnames := congrArg (List.map Prod.fst) (declarations_of_build hbuild)
  simp only [VariableTable.declarations, toList_table, List.map_append, List.map_map] at hnames
  exact hnames

theorem table_legible (hbuild : (graph.build start).outcome = .ok listing) :
    listing.table.Legible := by
  constructor
  · intro v hv
    have hmem := List.mem_map_of_mem (f := Variable.name) hv
    rw [names_of_build hbuild, VariableTable.names_registers] at hmem
    rcases List.mem_append.1 hmem with hregister | hintroduced
    · obtain ⟨r, _, hname⟩ := List.mem_map.1 hregister
      exact hname ▸ isWord_name r
    · obtain ⟨slot, _, hname⟩ := List.mem_map.1 ((names_introductions ..).subset hintroduced)
      exact hname ▸ slot.isWord_variableName
  · rw [names_of_build hbuild]
    exact graph.nodup_names _

end Graph

namespace Discovery

variable {d : Discovery} {exports : List Export} {graph : Graph} {start : UInt32}
  {listing : Listing}

theorem signature?_of_call? (hreturn : d.isa.CallsReturn)
    (hgraph : (d.discover exports).outcome = .ok graph) {node : Node} {call : Call}
    (hnode : graph.get? node.offset = some node) (hcall : node.call? = some call) :
    d.isa.signature? call.selector = some call.signature := by
  have hpasses := passes_of_discover hgraph
  cases harity : node.opcode.variableArity with
  | false =>
    rw [(hpasses.calls hreturn _ node hnode).fixed harity] at hcall
    cases hcall
  | true =>
    obtain ⟨recorded, _, hselects⟩ := hpasses.selects hreturn _ node hnode harity
    rw [hselects.recorded] at hcall
    cases hcall
    exact hselects.signature

/-- Every part of a listing is an instruction or a call of the set, or a variable of its table. -/
theorem rooted_of_statement (hreturn : d.isa.CallsReturn)
    (hgraph : (d.discover exports).outcome = .ok graph)
    (hbuild : (graph.build start).outcome = .ok listing) {statement : Statement}
    (hstatement : statement ∈ listing.statements) {part : Expression}
    (hpart : statement.expression.Part part) : part.Rooted d.isa listing.table := by
  rcases Graph.part_of_statement hbuild hstatement hpart with hnone | ⟨node, path, hnode, hexpr, _⟩
  · obtain ⟨index, site, rfl⟩ := Expression.eq_read_of_offset? hnone
    obtain ⟨slot, _, _, hread⟩ := Graph.exists_slot_of_part hbuild hstatement hpart
    obtain ⟨a, _, hholder⟩ := Naming.exists_holder_of_variableRead? hread
    obtain ⟨v, hv, _⟩ := Graph.introduced_of_holder? hbuild hholder
    exact .read hv
  · obtain ⟨arguments, _, rfl⟩ := Outline.expression_cases hexpr
    exact Node.rooted_toExpression ((passes_of_discover hgraph).drawnFrom hreturn _ node hnode)
      (fun _ => signature?_of_call? hreturn hgraph hnode) arguments

/-- Printed expressions of a listing can be read back: two of them print alike exactly if they are
the same up to offsets and sites. -/
theorem text_eq_iff (hisa : d.isa.Legible) (hreturn : d.isa.CallsReturn)
    (hgraph : (d.discover exports).outcome = .ok graph)
    (hbuild : (graph.build start).outcome = .ok listing) :
    ∀ statement ∈ listing.statements, ∀ statement' ∈ listing.statements, ∀ e e' : Expression,
      statement.expression.Part e → statement'.expression.Part e' →
      (e.text listing.table = e'.text listing.table ↔ e.unplaced = e'.unplaced) := by
  have hreadable : ∀ statement ∈ listing.statements, ∀ e, statement.expression.Part e →
      e.Readable d.isa listing.table :=
    fun statement hstatement e he part hpart =>
      rooted_of_statement hreturn hgraph hbuild hstatement (he.trans hpart)
  intro statement hstatement statement' hstatement' e e' he he'
  exact Expression.text_eq_iff_of_readable hisa (Graph.table_legible hbuild)
    (hreadable statement hstatement e he) (hreadable statement' hstatement' e' he')

/-- The listing of the loop around a call, in which an immediate stands as a statement and others as
arguments. -/
theorem boxing_text_eq_iff :
    boxing.isa.Legible ∧ boxing.isa.CallsReturn ∧
    ∃ graph listing, (boxing.discover [⟨0, 0⟩]).outcome = .ok graph ∧
      (graph.build 17).outcome = .ok listing ∧
      (listing.statements.map fun statement => statement.expression.text listing.table) =
        ["POP(R4,v_0011_0)", "PUSHI_DWORD(0x0)", "JMP(v_0018_0)",
          "VCALL.box(ADD_DWORD(PUSHI_DWORD(0x2),PUSHI_DWORD(0x3)))"] ∧
      ∀ statement ∈ listing.statements, ∀ statement' ∈ listing.statements, ∀ e e' : Expression,
        statement.expression.Part e → statement'.expression.Part e' →
        (e.text listing.table = e'.text listing.table ↔ e.unplaced = e'.unplaced) := by
  have hisa : boxing.isa.Legible := InstructionSet.reference_legible
  have hreturn : boxing.isa.CallsReturn := InstructionSet.reference_callsReturn
  have hrun : (boxing.discoverWithin 40 [⟨0, 0⟩]).map (fun outcome => outcome.map fun graph =>
      (graph.contains 17, (graph.listingFrom 17).map fun listing =>
        listing.statements.map fun statement => statement.expression.text listing.table)) =
      some (.ok (true, .ok ["POP(R4,v_0011_0)", "PUSHI_DWORD(0x0)", "JMP(v_0018_0)",
        "VCALL.box(ADD_DWORD(PUSHI_DWORD(0x2),PUSHI_DWORD(0x3)))"])) := by cbv
  obtain ⟨graph, hgraph, hfacts⟩ := exists_discovered _ hrun
  obtain ⟨hstart, htexts⟩ := Prod.mk.inj hfacts
  obtain ⟨listing, hbuild⟩ := (passes_of_discover hgraph).build_ok hstart
  rw [Graph.listingFrom_of_build hbuild] at htexts
  exact ⟨hisa, hreturn, graph, listing, hgraph, hbuild, Except.ok.inj htexts,
    text_eq_iff hisa hreturn hgraph hbuild⟩

end Discovery

end StackLift
