import Kennel.Asm.Render
import Kennel.Proofs.Text.Decimal

/-!
# Listings and their texts

Different listings have different texts, as long as their symbols are words of letters, digits and
underscores (`Item.Named`): a line break ends every line but the last and stands in none, so a text
has one way to be cut into lines, and a blank stands between the mnemonic and the operands of an
instruction only, so a line has one way to be cut into these. There is one lemma for each kind of
thing that is written, from registers to items.
-/

namespace Kennel

open Asm

/-! ## Texts put together -/

namespace Text

/-- Texts without a certain character are found again between the occurrences of that character. -/
theorem eq_of_intercalate {sep : String} {c : Char} (hsep : sep.toList = [c])
    {ws vs : List String} (hws : ws ≠ []) (hvs : vs ≠ []) (hw : ∀ w ∈ ws, c ∉ w.toList)
    (hv : ∀ v ∈ vs, c ∉ v.toList) (h : sep.intercalate ws = sep.intercalate vs) : ws = vs := by
  have hsplit : ∀ {us : List String}, us ≠ [] → (∀ u ∈ us, c ∉ u.toList) →
      (sep.intercalate us).toList.splitOn c = us.map String.toList := by
    intro us hne hu
    rw [String.toList_intercalate, hsep]
    exact List.splitOn_intercalate c (by simpa using hu) (by simpa using hne)
  have hlists := hsplit hws hw
  rw [h, hsplit hvs hv] at hlists
  exact (List.map_inj_right fun _ _ => String.toList_injective).mp hlists.symm

theorem not_mem_intercalate {sep : String} {c : Char} (hsep : c ∉ sep.toList) {ws : List String}
    (hw : ∀ w ∈ ws, c ∉ w.toList) : c ∉ (sep.intercalate ws).toList := by
  induction ws with
  | nil => simp
  | cons w ws ih =>
    rw [List.forall_mem_cons] at hw
    cases ws with
    | nil => simpa using hw.1
    | cons v ws => simpa [hw.1, hsep] using ih hw.2

/-- A map that is injective on certain elements is so on the lists of such elements. -/
theorem eq_of_map_eq {α : Type} {P : α → Prop} {f : α → String}
    (hf : ∀ {a b : α}, P a → P b → f a = f b → a = b) {as bs : List α} (ha : ∀ a ∈ as, P a)
    (hb : ∀ b ∈ bs, P b) (h : as.map f = bs.map f) : as = bs := by
  induction as generalizing bs with
  | nil => exact (List.map_eq_nil_iff.mp h.symm).symm
  | cons a as ih =>
    cases bs with
    | nil => cases h
    | cons b bs =>
      rw [List.forall_mem_cons] at ha hb
      obtain ⟨hhead, htail⟩ := List.cons.inj h
      rw [hf ha.1 hb.1 hhead, ih ha.2 hb.2 htail]

/-- Neither a blank nor a line break stands in the text. -/
def Unbroken (s : String) : Prop := ' ' ∉ s.toList ∧ '\n' ∉ s.toList

instance (s : String) : Decidable (Unbroken s) := inferInstanceAs (Decidable (_ ∧ _))

theorem Unbroken.append {s t : String} (hs : Unbroken s) (ht : Unbroken t) :
    Unbroken (s ++ t) := by
  simp [Unbroken, hs.1, hs.2, ht.1, ht.2]

theorem unbroken_signed (n : Int) : Unbroken (signed n) :=
  ⟨not_mem_signed rfl (by decide) n, not_mem_signed rfl (by decide) n⟩

end Text

open Text

namespace Asm

/-! ## Symbols -/

/-- A letter, a digit or an underscore. Beyond ASCII every character counts as a letter. -/
def isSymbolChar (c : Char) : Bool := c.isAlphanum || c == '_' || 128 ≤ c.toNat

/-- At least one character, and letters, digits and underscores only. -/
def IsSymbol (s : String) : Prop := s ≠ "" ∧ s.toList.all isSymbolChar = true

instance (s : String) : Decidable (IsSymbol s) := inferInstanceAs (Decidable (_ ∧ _))

theorem IsSymbol.not_mem {s : String} (h : IsSymbol s) {c : Char} (hc : isSymbolChar c = false) :
    c ∉ s.toList := by
  intro hmem
  rw [List.all_eq_true.mp h.2 c hmem] at hc
  cases hc

theorem IsSymbol.unbroken {s : String} (h : IsSymbol s) : Unbroken s :=
  ⟨h.not_mem rfl, h.not_mem rfl⟩

/-- The symbol of the label, if it is one, is well formed. -/
def Label.Named : Label → Prop
  | .symbol name => IsSymbol name
  | .numbered .. => True

def Instr.Named : Instr → Prop
  | .jump _ l => l.Named
  | .call symbol => IsSymbol symbol
  | _ => True

/-- The symbols of the item are well formed. -/
def Item.Named : Item → Prop
  | .text => True
  | .global name => IsSymbol name
  | .label l => l.Named
  | .instr i => i.Named

instance : (l : Label) → Decidable l.Named
  | .symbol name => inferInstanceAs (Decidable (IsSymbol name))
  | .numbered .. => .isTrue trivial

instance : (i : Instr) → Decidable i.Named
  | .jump _ l => inferInstanceAs (Decidable l.Named)
  | .call symbol => inferInstanceAs (Decidable (IsSymbol symbol))
  | .ret | .push _ | .pop _ | .mov .. | .xchg .. | .add .. | .sub .. | .imul .. | .cmp .. | .set ..
  | .movzb .. => .isTrue trivial

instance : (item : Item) → Decidable item.Named
  | .text => .isTrue trivial
  | .global name => inferInstanceAs (Decidable (IsSymbol name))
  | .label l => inferInstanceAs (Decidable l.Named)
  | .instr i => inferInstanceAs (Decidable i.Named)

/-! ## Registers and operands -/

def registers : List Register :=
  [.rax, .al, .rbp, .rsp, .rcx, .rsi, .rdi, .r8, .r9, .r10, .r11, .r12]

theorem Register.name_injective : Function.Injective Register.name := by
  have hfind : ∀ r : Register, registers.find? (fun q => q.name = r.name) = some r := by
    intro r
    cases r <;> rfl
  intro r q h
  have hr := hfind r
  rw [h, hfind q] at hr
  exact (Option.some.inj hr).symm

theorem Register.unbroken_name (r : Register) : Unbroken r.name := by
  cases r <;> decide

/-- What stands for the offset in the text of a memory operand. -/
def offsetText (n : Int) : String := if n = 0 then "" else signed n

theorem not_mem_offsetText {c : Char} (hc : c.isDigit = false) (hminus : c ≠ '-') (n : Int) :
    c ∉ (offsetText n).toList := by
  unfold offsetText
  split
  · simp
  · exact not_mem_signed hc hminus n

theorem offsetText_injective : Function.Injective offsetText := by
  intro m n h
  unfold offsetText at h
  by_cases hm : m = 0
  · by_cases hn : n = 0
    · rw [hm, hn]
    · rw [if_pos hm, if_neg hn] at h
      exact absurd h.symm (signed_ne_empty n)
  · by_cases hn : n = 0
    · rw [if_neg hm, if_pos hn] at h
      exact absurd h (signed_ne_empty m)
    · rw [if_neg hm, if_neg hn] at h
      exact signed_injective h

theorem Operand.render_mem (base : Register) (offset : Int) :
    (Operand.mem base offset).render = offsetText offset ++ "(" ++ base.name ++ ")" := rfl

theorem Operand.unbroken_render (o : Operand) : Unbroken o.render := by
  cases o with
  | reg r => exact r.unbroken_name
  | imm n => exact Unbroken.append (by decide) (unbroken_signed n)
  | mem base offset =>
    have hoffset : Unbroken (offsetText offset) :=
      ⟨not_mem_offsetText rfl (by decide) offset, not_mem_offsetText rfl (by decide) offset⟩
    rw [Operand.render_mem]
    exact ((hoffset.append (by decide)).append base.unbroken_name).append (by decide)

def Operand.isImm : Operand → Bool
  | .imm _ => true
  | _ => false

def Operand.isMem : Operand → Bool
  | .mem .. => true
  | _ => false

theorem Register.not_mem_name (r : Register) : '$' ∉ r.name.toList ∧ '(' ∉ r.name.toList := by
  cases r <;> decide

theorem Operand.dollar_mem_render (o : Operand) : '$' ∈ o.render.toList ↔ o.isImm = true := by
  cases o with
  | reg r => simp [Operand.render, Operand.isImm, r.not_mem_name.1]
  | imm n => simp [Operand.render, Operand.isImm]
  | mem base offset =>
    have hoffset := not_mem_offsetText (c := '$') rfl (by decide) offset
    simp [Operand.render_mem, Operand.isImm, hoffset, base.not_mem_name.1]

theorem Operand.bracket_mem_render (o : Operand) : '(' ∈ o.render.toList ↔ o.isMem = true := by
  cases o with
  | reg r => simp [Operand.render, Operand.isMem, r.not_mem_name.2]
  | imm n => simp [Operand.render, Operand.isMem, not_mem_signed]
  | mem base offset => simp [Operand.render, Operand.isMem]

theorem Operand.render_mem_inj {base base' : Register} {offset offset' : Int}
    (h : (Operand.mem base offset).render = (Operand.mem base' offset').render) :
    base = base' ∧ offset = offset' := by
  -- The opening bracket cuts the text into the offset and the base.
  have hcut : ∀ (b : Register) (n : Int),
      (Operand.mem b n).render = "(".intercalate [offsetText n, b.name ++ ")"] := by
    intro b n
    simp [Operand.render_mem, String.append_assoc]
  have hparts : ∀ (b : Register) (n : Int), ∀ w ∈ [offsetText n, b.name ++ ")"],
      '(' ∉ w.toList := by
    intro b n
    simp [b.not_mem_name.2, not_mem_offsetText]
  rw [hcut, hcut] at h
  have hlists := eq_of_intercalate (c := '(') rfl (by simp) (by simp) (hparts base offset)
    (hparts base' offset') h
  obtain ⟨hoffset, hrest⟩ := List.cons.inj hlists
  have hbase := (String.append_left_inj ")").mp (List.cons.inj hrest).1
  exact ⟨Register.name_injective hbase, offsetText_injective hoffset⟩

theorem Operand.render_injective : Function.Injective Operand.render := by
  intro o p h
  have himm : o.isImm = p.isImm := by
    rw [Bool.eq_iff_iff, ← o.dollar_mem_render, ← p.dollar_mem_render, h]
  have hmem : o.isMem = p.isMem := by
    rw [Bool.eq_iff_iff, ← o.bracket_mem_render, ← p.bracket_mem_render, h]
  cases o with
  | reg r =>
    cases p with
    | reg q => exact congrArg Operand.reg (Register.name_injective h)
    | imm m => cases himm
    | mem base offset => cases hmem
  | imm n =>
    cases p with
    | reg q => cases himm
    | imm m => exact congrArg Operand.imm (signed_injective ((String.append_right_inj "$").mp h))
    | mem base offset => cases hmem
  | mem base offset =>
    cases p with
    | reg q => cases hmem
    | imm m => cases hmem
    | mem base' offset' =>
      obtain ⟨rfl, rfl⟩ := Operand.render_mem_inj h
      rfl

/-! ## Labels -/

theorem Label.render_numbered_inj {mark mark' : Mark} {id id' : Nat}
    (h : (Label.numbered mark id).render = (Label.numbered mark' id').render) :
    mark = mark' ∧ id = id' := by
  -- No name of a mark is the beginning of another one.
  obtain rfl : mark = mark' := by
    have h := congrArg String.toList h
    cases mark <;> cases mark' <;> simp [Label.render, Mark.name] at h ⊢
  exact ⟨rfl, numeral_injective (by simpa [Label.render] using h)⟩

theorem Label.render_numbered_ne {mark : Mark} {id : Nat} {name : String}
    (h : name.toList.head? ≠ some '.') : (Label.numbered mark id).render ≠ name := by
  rintro rfl
  exact h (by simp [Label.render])

theorem Label.Named.not_mem_render {l : Label} (hl : l.Named) {c : Char}
    (hc : isSymbolChar c = false) (hdot : c ≠ '.') : c ∉ l.render.toList := by
  cases l with
  | symbol name => exact IsSymbol.not_mem hl hc
  | numbered mark id =>
    have hdigit : c.isDigit = false := by
      cases hd : c.isDigit with
      | false => rfl
      | true => simp [isSymbolChar, Char.isAlphanum, hd] at hc
    have hmark : IsSymbol ("L" ++ mark.name) := by cases mark <;> decide
    have hnot := hmark.not_mem hc
    rw [String.toList_append, List.mem_append, not_or] at hnot
    have hL : c ≠ 'L' := by simpa using hnot.1
    simp [Label.render, hdot, hL, hnot.2, not_mem_numeral hdigit]

theorem Label.Named.render_inj {l k : Label} (hl : l.Named) (hk : k.Named)
    (h : l.render = k.render) : l = k := by
  have hdot : ∀ {name : String}, IsSymbol name → name.toList.head? ≠ some '.' :=
    fun hname hhead => hname.not_mem rfl (List.mem_of_mem_head? hhead)
  cases l with
  | symbol name =>
    cases k with
    | symbol name' => exact congrArg Label.symbol h
    | numbered mark id => exact absurd h.symm (Label.render_numbered_ne (hdot hl))
  | numbered mark id =>
    cases k with
    | symbol name => exact absurd h (Label.render_numbered_ne (hdot hk))
    | numbered mark' id' =>
      obtain ⟨rfl, rfl⟩ := Label.render_numbered_inj h
      rfl

theorem Label.Named.unbroken_render {l : Label} (hl : l.Named) : Unbroken l.render :=
  ⟨hl.not_mem_render rfl (by decide), hl.not_mem_render rfl (by decide)⟩

/-! ## Instructions -/

/-- What stands after the mnemonic of an instruction. -/
inductive Arg
  | operand (o : Operand)
  | target (l : Label)

def Arg.render : Arg → String
  | .operand o => o.render
  | .target l => l.render

def Arg.Named : Arg → Prop
  | .operand _ => True
  | .target l => l.Named

def Instr.mnemonic : Instr → String
  | .ret => "ret"
  | .push _ => "pushq"
  | .pop _ => "popq"
  | .mov .. => "movq"
  | .xchg .. => "xchgq"
  | .add .. => "addq"
  | .sub .. => "subq"
  | .imul .. => "imulq"
  | .cmp .. => "cmpq"
  | .set condition _ => "set" ++ condition.code
  | .movzb .. => "movzbq"
  | .jump none _ => "jmp"
  | .jump (some condition) _ => "j" ++ condition.code
  | .call _ => "call"

def Instr.args : Instr → List Arg
  | .ret => []
  | .push r | .pop r => [.operand (.reg r)]
  | .mov source target => [.operand source, .operand target]
  | .xchg lhs rhs => [.operand (.reg lhs), .operand (.reg rhs)]
  | .add source target | .sub source target | .imul source target | .cmp source target =>
    [.operand source, .operand (.reg target)]
  | .set _ target => [.operand (.reg target)]
  | .movzb source target => [.operand (.reg source), .operand (.reg target)]
  | .jump _ l => [.target l]
  | .call symbol => [.target (.symbol symbol)]

/-- The instruction with a mnemonic and operands. -/
def Instr.ofParts? : String → List Arg → Option Instr
  | "ret", [] => some .ret
  | "pushq", [.operand (.reg r)] => some (.push r)
  | "popq", [.operand (.reg r)] => some (.pop r)
  | "movq", [.operand source, .operand target] => some (.mov source target)
  | "xchgq", [.operand (.reg lhs), .operand (.reg rhs)] => some (.xchg lhs rhs)
  | "addq", [.operand source, .operand (.reg target)] => some (.add source target)
  | "subq", [.operand source, .operand (.reg target)] => some (.sub source target)
  | "imulq", [.operand source, .operand (.reg target)] => some (.imul source target)
  | "cmpq", [.operand source, .operand (.reg target)] => some (.cmp source target)
  | "sete", [.operand (.reg target)] => some (.set .equal target)
  | "setl", [.operand (.reg target)] => some (.set .less target)
  | "setg", [.operand (.reg target)] => some (.set .greater target)
  | "movzbq", [.operand (.reg source), .operand (.reg target)] => some (.movzb source target)
  | "jmp", [.target l] => some (.jump none l)
  | "je", [.target l] => some (.jump (some .equal) l)
  | "jl", [.target l] => some (.jump (some .less) l)
  | "jg", [.target l] => some (.jump (some .greater) l)
  | "call", [.target (.symbol symbol)] => some (.call symbol)
  | _, _ => none

theorem Instr.ofParts?_mnemonic_args (i : Instr) : ofParts? i.mnemonic i.args = some i := by
  cases i with
  | set condition target => cases condition <;> rfl
  | jump condition l =>
    cases condition with
    | none => rfl
    | some condition => cases condition <;> rfl
  | _ => rfl

theorem Instr.Named.args {i : Instr} (hi : i.Named) : ∀ a ∈ i.args, a.Named := by
  cases i with
  | jump condition l => exact List.forall_mem_singleton.mpr hi
  | call symbol => exact List.forall_mem_singleton.mpr hi
  | _ => simp [Instr.args, Arg.Named]

theorem Arg.Named.unbroken_render {a : Arg} (ha : a.Named) : Unbroken a.render := by
  cases a with
  | operand o => exact o.unbroken_render
  | target l => exact Label.Named.unbroken_render ha

/-- The operands of an instruction have a sign that no label has. -/
theorem Operand.render_ne {o : Operand} {l : Label} (hl : l.Named) : o.render ≠ l.render := by
  intro h
  have hdollar := hl.not_mem_render (c := '$') rfl (by decide)
  have hpercent := hl.not_mem_render (c := '%') rfl (by decide)
  have hname : ∀ r : Register, '%' ∈ r.name.toList := by
    intro r
    cases r <;> decide
  rw [← h] at hdollar hpercent
  cases o with
  | reg r => exact hpercent (hname r)
  | imm n => exact hdollar (by simp [Operand.render])
  | mem base offset => exact hpercent (by simp [Operand.render, hname base])

theorem Arg.Named.render_inj {a b : Arg} (ha : a.Named) (hb : b.Named)
    (h : a.render = b.render) : a = b := by
  cases a with
  | operand o =>
    cases b with
    | operand p => exact congrArg Arg.operand (Operand.render_injective h)
    | target l => exact absurd h (Operand.render_ne hb)
  | target l =>
    cases b with
    | operand p => exact absurd h.symm (Operand.render_ne ha)
    | target k => exact congrArg Arg.target (Label.Named.render_inj ha hb h)

/-- Words with a comma after each of them but the last. -/
def punctuate : List String → List String
  | [] => []
  | [w] => [w]
  | w :: v :: ws => (w ++ ",") :: punctuate (v :: ws)

theorem punctuate_ne_nil (w : String) (ws : List String) : punctuate (w :: ws) ≠ [] := by
  cases ws <;> exact List.cons_ne_nil _ _

theorem punctuate_injective : Function.Injective punctuate := by
  intro ws vs h
  fun_induction punctuate ws generalizing vs with
  | case1 =>
    cases vs with
    | nil => rfl
    | cons v vs => exact absurd h.symm (punctuate_ne_nil v vs)
  | case2 w =>
    match vs with
    | [] => cases h
    | [v] => exact h
    | v :: u :: us => exact absurd (List.cons.inj h).2.symm (punctuate_ne_nil u us)
  | case3 w w' ws ih =>
    match vs with
    | [] => cases h
    | [v] => exact absurd (List.cons.inj h).2 (punctuate_ne_nil w' ws)
    | v :: u :: us =>
      obtain ⟨hw, hrest⟩ := List.cons.inj h
      rw [(String.append_left_inj ",").mp hw, ih hrest]

theorem unbroken_of_mem_punctuate {ws : List String} (hw : ∀ w ∈ ws, Unbroken w) :
    ∀ w ∈ punctuate ws, Unbroken w := by
  fun_induction punctuate ws with
  | case1 => exact hw
  | case2 w => exact hw
  | case3 w v ws ih =>
    rw [List.forall_mem_cons] at hw ⊢
    exact ⟨hw.1.append (by decide), ih hw.2⟩

/-- The mnemonic and the operands of an instruction, with the comma between two of them. -/
def Instr.words (i : Instr) : List String := i.mnemonic :: punctuate (i.args.map Arg.render)

theorem Instr.render_eq (i : Instr) : i.render = " ".intercalate i.words := by
  cases i with
  | jump condition l =>
    cases condition <;> simp [Instr.render, Instr.words, Instr.mnemonic, Instr.args, punctuate,
      Arg.render, String.append_assoc]
  | _ => simp [Instr.render, instruction, Instr.words, Instr.mnemonic, Instr.args, punctuate,
      Arg.render, Operand.render, Label.render, String.append_assoc]

theorem Instr.isSymbol_mnemonic (i : Instr) : IsSymbol i.mnemonic := by
  have hset : ∀ c : Condition, IsSymbol ("set" ++ c.code) := by
    intro c
    cases c <;> decide
  have hjump : ∀ c : Condition, IsSymbol ("j" ++ c.code) := by
    intro c
    cases c <;> decide
  cases i with
  | set condition target => exact hset condition
  | jump condition l =>
    cases condition with
    | none => exact (by decide : IsSymbol "jmp")
    | some condition => exact hjump condition
  | _ =>
    simp only [Instr.mnemonic]
    decide

theorem Instr.Named.unbroken_of_mem_words {i : Instr} (hi : i.Named) :
    ∀ w ∈ i.words, Unbroken w := by
  refine List.forall_mem_cons.mpr ⟨i.isSymbol_mnemonic.unbroken, unbroken_of_mem_punctuate ?_⟩
  intro w hw
  obtain ⟨a, ha, rfl⟩ := List.mem_map.mp hw
  exact (hi.args a ha).unbroken_render

theorem Instr.Named.render_inj {i j : Instr} (hi : i.Named) (hj : j.Named)
    (h : i.render = j.render) : i = j := by
  rw [i.render_eq, j.render_eq] at h
  have hwords : i.words = j.words := eq_of_intercalate (c := ' ') rfl (List.cons_ne_nil _ _)
    (List.cons_ne_nil _ _) (fun w hw => (hi.unbroken_of_mem_words w hw).1)
    (fun w hw => (hj.unbroken_of_mem_words w hw).1) h
  obtain ⟨hmnemonic, htexts⟩ := List.cons.inj hwords
  have hargs := eq_of_map_eq Arg.Named.render_inj hi.args hj.args (punctuate_injective htexts)
  have hparts := i.ofParts?_mnemonic_args
  rw [hmnemonic, hargs, j.ofParts?_mnemonic_args] at hparts
  exact (Option.some.inj hparts).symm

/-! ## Items and listings -/

theorem Instr.Named.newline_not_mem {i : Instr} (hi : i.Named) : '\n' ∉ i.render.toList := by
  rw [i.render_eq]
  exact not_mem_intercalate (by decide) fun w hw => (hi.unbroken_of_mem_words w hw).2

theorem Item.Named.newline_not_mem {item : Item} (h : item.Named) :
    '\n' ∉ item.render.toList := by
  cases item with
  | text => decide
  | global name => simp [Item.render, (IsSymbol.unbroken h).2]
  | label l => simp [Item.render, (Label.Named.unbroken_render h).2]
  | instr i => simp [Item.render, Instr.Named.newline_not_mem h]

def Item.isLabel : Item → Bool
  | .label _ => true
  | _ => false

def Item.isDirective : Item → Bool
  | .text | .global _ => true
  | _ => false

/-- Labels alone are not set off. -/
theorem Item.Named.tab_mem_render {item : Item} (h : item.Named) :
    '\t' ∈ item.render.toList ↔ item.isLabel = false := by
  cases item with
  | label l =>
    have hl := Label.Named.not_mem_render (c := '\t') h rfl (by decide)
    simp [Item.render, Item.isLabel, hl]
  | _ => simp [Item.render, Item.isLabel]

theorem Instr.first_render_ne (i : Instr) : i.render.toList[0]? ≠ some '.' := by
  cases i with
  | jump condition l => cases condition <;> simp [Instr.render]
  | _ => simp [Instr.render, instruction]

theorem Label.Named.second_render_ne {l : Label} (hl : l.Named) :
    (l.render ++ ":").toList[1]? ≠ some '.' := by
  cases l with
  | symbol name =>
    intro hdot
    have hmem := List.mem_of_getElem? hdot
    rw [String.toList_append, List.mem_append] at hmem
    exact hmem.elim (IsSymbol.not_mem hl rfl) (by decide)
  | numbered mark id => simp [Label.render]

/-- Directives are told by the dot after the tab. -/
theorem Item.Named.second_render {item : Item} (h : item.Named) :
    item.render.toList[1]? = some '.' ↔ item.isDirective = true := by
  cases item with
  | text => decide
  | global name => simp [Item.render, Item.isDirective]
  | label l => simpa [Item.render, Item.isDirective] using Label.Named.second_render_ne h
  | instr i => simpa [Item.render, Item.isDirective] using i.first_render_ne

theorem Item.Named.render_inj {item item' : Item} (h : item.Named) (h' : item'.Named)
    (hrender : item.render = item'.render) : item = item' := by
  have hlabel : item.isLabel = item'.isLabel := by
    rw [Bool.eq_iff_iff, ← Bool.not_eq_false, ← Bool.not_eq_false, ← h.tab_mem_render,
      ← h'.tab_mem_render, hrender]
  have hdirective : item.isDirective = item'.isDirective := by
    rw [Bool.eq_iff_iff, ← h.second_render, ← h'.second_render, hrender]
  have hglobal : ∀ name : String, Item.text.render ≠ (Item.global name).render := by
    intro name heq
    have hchars := congrArg String.toList heq
    simp [Item.render] at hchars
  cases item with
  | text =>
    cases item' with
    | text => rfl
    | global name => exact absurd hrender (hglobal name)
    | label l => cases hlabel
    | instr i => cases hdirective
  | global name =>
    cases item' with
    | text => exact absurd hrender.symm (hglobal name)
    | global name' => exact congrArg Item.global ((String.append_right_inj _).mp hrender)
    | label l => cases hlabel
    | instr i => cases hdirective
  | label l =>
    cases item' with
    | label k =>
      have heq := (String.append_left_inj ":").mp hrender
      exact congrArg Item.label (Label.Named.render_inj h h' heq)
    | _ => cases hlabel
  | instr i =>
    cases item' with
    | text => cases hdirective
    | global name => cases hdirective
    | label l => cases hlabel
    | instr j =>
      have heq := (String.append_right_inj "\t").mp hrender
      exact congrArg Item.instr (Instr.Named.render_inj h h' heq)

/-- No line is empty. -/
theorem Listing.render_eq_empty {l : Listing} : l.render = "" ↔ l = [] := by
  cases l with
  | nil => simp [Listing.render, Listing.lines]
  | cons item l =>
    cases l <;> cases item <;> simp [Listing.render, Listing.lines, Item.render]

theorem Listing.newline_not_mem_lines {l : Listing} (hl : ∀ item ∈ l, item.Named) :
    ∀ w ∈ l.lines, '\n' ∉ w.toList := by
  intro w hw
  obtain ⟨item, hitem, rfl⟩ := List.mem_map.mp hw
  exact (hl item hitem).newline_not_mem

/-- The text of a listing tells its items. -/
theorem Listing.eq_of_render_eq {l l' : Listing} (hl : ∀ item ∈ l, item.Named)
    (hl' : ∀ item ∈ l', item.Named) (h : l.render = l'.render) : l = l' := by
  by_cases hnil : l = []
  · subst hnil
    exact (Listing.render_eq_empty.mp h.symm).symm
  · have hnil' : l' ≠ [] := by
      intro heq
      exact hnil (Listing.render_eq_empty.mp (h.trans (Listing.render_eq_empty.mpr heq)))
    have hlines : l.lines = l'.lines := eq_of_intercalate (c := '\n') rfl
      (by simpa [Listing.lines] using hnil) (by simpa [Listing.lines] using hnil')
      (Listing.newline_not_mem_lines hl) (Listing.newline_not_mem_lines hl') h
    exact eq_of_map_eq Item.Named.render_inj hl hl' hlines

/-- Loads of words around the base of the frame, between labels that differ by a dot only. -/
def frameLoads (words : List Int) : Listing :=
  .label (.symbol "Lendwhile1") ::
    words.map (fun word => .instr (.mov (.mem .rbp (8 * word)) (.reg .rax))) ++
    [.label (.numbered .endLoop 1), .instr (.set .less .al),
      .instr (.jump (some .less) (.symbol "Lendwhile1"))]

def frameLoadsInFull : Listing :=
  [.label (.symbol "Lendwhile1"), .instr (.mov (.mem .rbp (-8)) (.reg .rax)),
    .instr (.mov (.mem .rbp 0) (.reg .rax)), .label (.numbered .endLoop 1), .instr (.set .less .al),
    .instr (.jump (some .less) (.symbol "Lendwhile1"))]

theorem Listing.eq_of_render_eq_frameLoads :
    (∀ item ∈ frameLoads [-1, 0], item.Named) ∧ (∀ item ∈ frameLoadsInFull, item.Named) ∧
      (frameLoads [-1, 0]).render = frameLoadsInFull.render ∧
      frameLoads [-1, 0] = frameLoadsInFull := by
  have hl : ∀ item ∈ frameLoads [-1, 0], item.Named := by decide
  have hl' : ∀ item ∈ frameLoadsInFull, item.Named := by decide
  have h : (frameLoads [-1, 0]).render = frameLoadsInFull.render := rfl
  exact ⟨hl, hl', h, Listing.eq_of_render_eq hl hl' h⟩

end Asm

end Kennel
