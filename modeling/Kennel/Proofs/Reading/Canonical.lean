import Kennel.Proofs.Program
import Kennel.Proofs.Reading.Numbering
import Kennel.Proofs.Text.Decimal

/-!
# Programs and their words

`Stmt.wordsAll` writes a program as words: expressions in infix order without parentheses, a
separator after every condition, a terminator after every block. A program is `Canonical` when it
can be written so and read back: its trees are well shaped, its names and literals are words of
their class, and its branches and loops are numbered in order. Exactly these programs are read from
texts, and each is read from any layout of its words (`parse_layout`).
-/

namespace Kennel

open Text Reading

/-! ## Writing -/

def Op.word : Op → String
  | .add => "WOOF"
  | .subtract => "BARK"
  | .multiply => "ARF"
  | .less => "YIP"
  | .greater => "YAP"

def Atom.word : Atom → String
  | .literal n => signed n.toInt
  | .name x => x

/-- The words of an expression in infix order. -/
def Expr.words : Expr → List String
  | .atom a => [a.word]
  | .binary op l r => l.words ++ op.word :: r.words

mutual

def Stmt.words : Stmt → List String
  | .bare x => [x]
  | .assign x e => x :: "AWOO" :: e.words
  | .branch _ c yes no =>
    "RUF?" :: (c.words ++ "VUH" :: (Stmt.wordsAll yes ++ "ROWH" :: (Stmt.wordsAll no ++ ["ARRUF"])))
  | .loop _ c body => "GRRR" :: (c.words ++ "BOW" :: (Stmt.wordsAll body ++ ["ARRUF"]))

def Stmt.wordsAll : List Stmt → List String
  | [] => []
  | s :: rest => s.words ++ Stmt.wordsAll rest

end

/-! ## Canonical programs -/

/-- A literal that is not negative, or a word that is neither a keyword nor an integer. -/
def Atom.Canonical : Atom → Prop
  | .literal n => 0 ≤ n.toInt ∧ n.toInt ≤ maxLiteral
  | .name x => IsWord x ∧ classify x = .plain

def Expr.Canonical (e : Expr) : Prop := e.WellShaped ∧ ∀ a ∈ e.atoms, a.Canonical

instance Atom.Canonical.decidable : (a : Atom) → Decidable a.Canonical
  | .literal _ => inferInstanceAs (Decidable (_ ∧ _))
  | .name _ => inferInstanceAs (Decidable (_ ∧ _))

instance (e : Expr) : Decidable e.Canonical := inferInstanceAs (Decidable (_ ∧ _))

instance (w : String) : Decidable (IsName w) := inferInstanceAs (Decidable (_ = _))

structure Program.Canonical (p : Program) : Prop where
  exprs : ∀ e ∈ Stmt.exprsAll p, e.Canonical
  /-- Names that are assigned or stand alone may be integers, but no keywords. -/
  heads : ∀ x ∈ Stmt.headsAll p, IsWord x ∧ IsName x
  /-- The numbers count up from zero in the order of the opening words. -/
  numbers : (Stmt.nodesAll p).map (·.2) = List.range (Stmt.nodesAll p).length

/-! ## Numerals -/

theorem Reading.classify_of_isNumeral {w : String} (h : isNumeral w = true) :
    classify w = .integer := by
  have hname : Keyword.ofWord? w = none := by
    cases hk : Keyword.ofWord? w with
    | none => rfl
    | some k =>
      have hall : ∀ q ∈ Keyword.spellings, isNumeral q.1 = false := by decide
      have hw := hall _ (mem_spellings (classify_keyword_iff.mpr hk))
      rw [h] at hw
      cases hw
  simp [classify, hname, h]

/-! ## What has been written is read -/

theorem Atom.word_literal {n : Int64} (h : 0 ≤ n.toInt) :
    (literal n).word = numeral n.toInt.toNat := by
  obtain ⟨k, hk⟩ := Int.eq_ofNat_of_zero_le h
  simp only [word, hk]
  rfl

theorem Atom.Canonical.symbol? {a : Atom} (h : a.Canonical) :
    Reading.symbol? a.word = some (.operand a) := by
  cases a with
  | name x => simp [Reading.symbol?, Atom.word, h.2]
  | literal n =>
    obtain ⟨hlo, hhi⟩ := h
    have hval : Int64.ofNat n.toInt.toNat = n := by
      rw [← Int64.toInt_inj, Int64.toInt_ofNat_of_lt (by simp only [maxLiteral] at hhi; omega)]
      omega
    rw [Atom.word_literal hlo, Reading.symbol?, classify_of_isNumeral (isNumeral_numeral _)]
    simp only [digitsValue_numeral, hval]
    exact if_pos (by omega)

theorem Op.symbol?_word (o : Op) : symbol? o.word = some (.operator o) := by cases o <;> rfl

theorem Expr.spells_words (e : Expr) (h : ∀ a ∈ e.atoms, a.Canonical) :
    Spells e.words e.symbols := by
  induction e with
  | atom a => exact .singleton (h a List.mem_cons_self).symbol?
  | binary op l r ihl ihr =>
    simp only [Expr.atoms, List.forall_mem_append] at h
    exact (ihl h.1).append (Spells.cons_iff.mpr ⟨op.symbol?_word, ihr h.2⟩)

theorem Expr.Canonical.expression {e : Expr} (h : e.Canonical) : Expression e.words e :=
  ⟨h.1, e.spells_words h.2⟩

/-- The numbers of the nodes count up from `n`. -/
def Counts (n : Nat) (nodes : List (Kind × Nat)) : Prop :=
  nodes.map (·.2) = List.range' n nodes.length

theorem Counts.uncons {n id : Nat} {kind : Kind} {nodes : List (Kind × Nat)}
    (h : Counts n ((kind, id) :: nodes)) : id = n ∧ Counts (n + 1) nodes := by
  simp only [Counts, List.map_cons, List.length_cons, List.range'_succ, List.cons.injEq] at h
  exact h

theorem Counts.unappend {n : Nat} {nodes others : List (Kind × Nat)}
    (h : Counts n (nodes ++ others)) : Counts n nodes ∧ Counts (n + nodes.length) others := by
  simp only [Counts, List.map_append, List.length_append, ← List.range'_append_1] at h
  exact List.append_inj h (by simp)

mutual

theorem Stmt.items_words : ∀ (s : Stmt) {n m : Nat} {ws : List String} {p : List Stmt},
    (∀ e ∈ s.exprs, e.Canonical) → (∀ x ∈ s.heads, IsWord x ∧ IsName x) → Counts n s.nodes →
    Items (n + s.nodes.length) ws p m → Items n (s.words ++ ws) (s :: p) m
  | .bare x, n, m, ws, p, _, hx, _, hp => .name (hx x List.mem_cons_self).2 hp
  | .assign x e, n, m, ws, p, he, hx, _, hp =>
    have hseps : ∀ w ∈ ([] : List String), IsSeparator w := by simp
    .assign (hx x List.mem_cons_self).2 hseps (he e List.mem_cons_self).expression hp
  | .branch id c yes no, n, m, ws, p, he, hx, hn, hp => by
    simp only [Stmt.exprs, List.forall_mem_cons, List.forall_mem_append] at he
    simp only [Stmt.heads, List.forall_mem_append] at hx
    obtain ⟨rfl, hn⟩ := Counts.uncons hn
    obtain ⟨hny, hnn⟩ := hn.unappend
    have hyes := Stmt.items_wordsAll yes he.2.1 hx.1 hny
    have hno := Stmt.items_wordsAll no he.2.2 hx.2 hnn
    have hlen : id + (Stmt.branch id c yes no).nodes.length =
        id + 1 + (Stmt.nodesAll yes).length + (Stmt.nodesAll no).length := by
      simp only [Stmt.nodes, List.length_cons, List.length_append]
      omega
    rw [hlen] at hp
    have hitem := Items.branch he.1.expression (.separator (.inl rfl) hyes) (.inl rfl) hno
      (.inr (.inl rfl)) hp
    simpa [Stmt.words] using hitem
  | .loop id c body, n, m, ws, p, he, hx, hn, hp => by
    simp only [Stmt.exprs, List.forall_mem_cons] at he
    obtain ⟨rfl, hn⟩ := Counts.uncons hn
    have hbody := Stmt.items_wordsAll body he.2 hx hn
    have hlen : id + (Stmt.loop id c body).nodes.length =
        id + 1 + (Stmt.nodesAll body).length := by
      simp only [Stmt.nodes, List.length_cons]
      omega
    rw [hlen] at hp
    have hitem := Items.loop he.1.expression (.separator (.inr rfl) hbody) (.inr (.inl rfl)) hp
    simpa [Stmt.words] using hitem

theorem Stmt.items_wordsAll : ∀ (p : List Stmt) {n : Nat},
    (∀ e ∈ Stmt.exprsAll p, e.Canonical) → (∀ x ∈ Stmt.headsAll p, IsWord x ∧ IsName x) →
    Counts n (Stmt.nodesAll p) → Items n (Stmt.wordsAll p) p (n + (Stmt.nodesAll p).length)
  | [], n, _, _, _ => .nil n
  | s :: p, n, he, hx, hn => by
    simp only [Stmt.exprsAll, List.forall_mem_append] at he
    simp only [Stmt.headsAll, List.forall_mem_append] at hx
    obtain ⟨hns, hnp⟩ := Counts.unappend hn
    have hp := Stmt.items_wordsAll p he.2 hx.2 hnp
    have hs := Stmt.items_words s he.1 hx.1 hns hp
    rwa [Nat.add_assoc, ← List.length_append] at hs

end

theorem Op.isWord_word (o : Op) : IsWord o.word := by cases o <;> decide

theorem Atom.Canonical.isWord {a : Atom} (h : a.Canonical) : IsWord a.word := by
  cases a with
  | name x => exact h.1
  | literal n =>
    rw [Atom.word_literal h.1]
    exact isWord_of_isNumeral (isNumeral_numeral _)

theorem Expr.isWord_of_mem_words {e : Expr} (h : ∀ a ∈ e.atoms, a.Canonical) :
    ∀ w ∈ e.words, IsWord w := by
  induction e with
  | atom a => simpa [Expr.words] using (h a List.mem_cons_self).isWord
  | binary op l r ihl ihr =>
    simp only [Expr.atoms, List.forall_mem_append] at h
    simp only [Expr.words, List.forall_mem_append, List.forall_mem_cons]
    exact ⟨ihl h.1, op.isWord_word, ihr h.2⟩

mutual

theorem Stmt.isWord_of_mem_words : ∀ (s : Stmt), (∀ e ∈ s.exprs, e.Canonical) →
    (∀ x ∈ s.heads, IsWord x ∧ IsName x) → ∀ w ∈ s.words, IsWord w
  | .bare x, _, hx => by simpa [Stmt.words] using (hx x List.mem_cons_self).1
  | .assign x e, he, hx => by
    simp only [Stmt.words, List.forall_mem_cons]
    exact ⟨(hx x List.mem_cons_self).1, by decide,
      Expr.isWord_of_mem_words (he e List.mem_cons_self).2⟩
  | .branch id c yes no, he, hx => by
    simp only [Stmt.exprs, List.forall_mem_cons, List.forall_mem_append] at he
    simp only [Stmt.heads, List.forall_mem_append] at hx
    simp only [Stmt.words, List.forall_mem_cons, List.forall_mem_append]
    exact ⟨by decide, Expr.isWord_of_mem_words he.1.2, by decide,
      Stmt.isWord_of_mem_wordsAll yes he.2.1 hx.1, by decide,
      Stmt.isWord_of_mem_wordsAll no he.2.2 hx.2, by decide⟩
  | .loop id c body, he, hx => by
    simp only [Stmt.exprs, List.forall_mem_cons] at he
    simp only [Stmt.words, List.forall_mem_cons, List.forall_mem_append]
    exact ⟨by decide, Expr.isWord_of_mem_words he.1.2, by decide,
      Stmt.isWord_of_mem_wordsAll body he.2 hx, by decide⟩

theorem Stmt.isWord_of_mem_wordsAll : ∀ (p : List Stmt), (∀ e ∈ Stmt.exprsAll p, e.Canonical) →
    (∀ x ∈ Stmt.headsAll p, IsWord x ∧ IsName x) → ∀ w ∈ Stmt.wordsAll p, IsWord w
  | [], _, _ => by simp [Stmt.wordsAll]
  | s :: p, he, hx => by
    simp only [Stmt.exprsAll, List.forall_mem_append] at he
    simp only [Stmt.headsAll, List.forall_mem_append] at hx
    simp only [Stmt.wordsAll, List.forall_mem_append]
    exact ⟨Stmt.isWord_of_mem_words s he.1 hx.1, Stmt.isWord_of_mem_wordsAll p he.2 hx.2⟩

end

theorem Program.Canonical.parse_eq_ok {p : Program} (h : p.Canonical) {text : String}
    (ht : Layout (Stmt.wordsAll p) text) : parse text = .ok p := by
  have hw := words_of_layout (Stmt.isWord_of_mem_wordsAll p h.exprs h.heads) ht
  have hn : Counts 0 (Stmt.nodesAll p) := by
    rw [Counts, ← List.range_eq_range']
    exact h.numbers
  have hp := (Stmt.items_wordsAll p h.exprs h.heads hn).program_eq_ok
  rwa [← hw] at hp

/-! ## What has been read is canonical -/

theorem Expr.operand_mem_symbols {e : Expr} {a : Atom} (h : a ∈ e.atoms) :
    .operand a ∈ e.symbols := by
  induction e with
  | atom b => simpa [Expr.symbols, Expr.atoms] using h
  | binary op l r ihl ihr =>
    simp only [Expr.atoms, List.mem_append] at h
    simp only [Expr.symbols, List.mem_append, List.mem_cons]
    exact h.imp ihl fun h => .inr (ihr h)

theorem Reading.canonical_of_symbol? {w : String} {a : Atom} (hw : IsWord w)
    (h : symbol? w = some (.operand a)) : a.Canonical := by
  unfold symbol? at h
  split at h
  · next hc => cases h; exact ⟨hw, hc⟩
  · split at h
    · next hle =>
      cases h
      simp only [Atom.Canonical]
      rw [Int64.toInt_ofNat_of_lt (by simp only [maxLiteral] at hle; omega)]
      omega
    · cases h
  · cases h
  · cases h

theorem Reading.Expression.canonical {ws : List String} {e : Expr} (h : Expression ws e)
    (hw : ∀ w ∈ ws, IsWord w) : e.Canonical := by
  refine ⟨h.1, fun a ha => ?_⟩
  have hmem : some (.operand a) ∈ e.symbols.map some :=
    List.mem_map_of_mem (Expr.operand_mem_symbols ha)
  rw [← h.2] at hmem
  obtain ⟨w, hws, hsym⟩ := List.mem_map.mp hmem
  exact canonical_of_symbol? (hw w hws) hsym

theorem Reading.Items.canonical {n m : Nat} {ws : List String} {p : List Stmt}
    (h : Items n ws p m) (hw : ∀ w ∈ ws, IsWord w) :
    (∀ e ∈ Stmt.exprsAll p, e.Canonical) ∧ ∀ x ∈ Stmt.headsAll p, IsWord x ∧ IsName x := by
  induction h with
  | nil n => simp [Stmt.exprsAll, Stmt.headsAll]
  | separator _ _ ih => exact ih (List.forall_mem_cons.mp hw).2
  | name hx _ ih =>
    rw [List.forall_mem_cons] at hw
    obtain ⟨he, hh⟩ := ih hw.2
    exact ⟨he, List.forall_mem_cons.mpr ⟨⟨hw.1, hx⟩, hh⟩⟩
  | assign hx _ he _ ih =>
    simp only [List.forall_mem_cons, List.forall_mem_append] at hw
    obtain ⟨hword, -, -, hes, hws⟩ := hw
    obtain ⟨hexprs, hheads⟩ := ih hws
    exact ⟨List.forall_mem_cons.mpr ⟨he.canonical hes, hexprs⟩,
      List.forall_mem_cons.mpr ⟨⟨hword, hx⟩, hheads⟩⟩
  | branch hc _ _ _ _ _ ihy ihn ih =>
    simp only [List.forall_mem_cons, List.forall_mem_append] at hw
    obtain ⟨-, hes, hys, -, hzs, -, hws⟩ := hw
    obtain ⟨hey, hhy⟩ := ihy hys
    obtain ⟨hen, hhn⟩ := ihn hzs
    obtain ⟨her, hhr⟩ := ih hws
    simp only [Stmt.exprsAll, Stmt.exprs, Stmt.headsAll, Stmt.heads, List.cons_append,
      List.forall_mem_cons, List.forall_mem_append]
    exact ⟨⟨hc.canonical hes, ⟨hey, hen⟩, her⟩, ⟨hhy, hhn⟩, hhr⟩
  | loop hc _ _ _ ihb ih =>
    simp only [List.forall_mem_cons, List.forall_mem_append] at hw
    obtain ⟨-, hes, hys, -, hws⟩ := hw
    obtain ⟨heb, hhb⟩ := ihb hys
    obtain ⟨her, hhr⟩ := ih hws
    simp only [Stmt.exprsAll, Stmt.exprs, Stmt.headsAll, Stmt.heads, List.cons_append,
      List.forall_mem_cons, List.forall_mem_append]
    exact ⟨⟨hc.canonical hes, heb, her⟩, hhb, hhr⟩

theorem Program.canonical_of_parse {text : String} {p : Program} (h : parse text = .ok p) :
    p.Canonical := by
  obtain ⟨m, hi⟩ := items_of_program h
  have hnum := hi.numbers.2
  rw [Nat.sub_zero] at hnum
  have hlen : (Stmt.nodesAll p).length = m := by
    simpa using congrArg List.length hnum
  obtain ⟨hexprs, hheads⟩ := hi.canonical fun w hw => isWord_of_mem_words hw
  exact ⟨hexprs, hheads, by rw [hnum, hlen, List.range_eq_range']⟩

/-- Every layout of the words of a canonical program is read as this program, and every program
that has been read is canonical. -/
theorem parse_layout :
    (∀ (p : Program) (text : String), p.Canonical → Layout (Stmt.wordsAll p) text →
      parse text = .ok p) ∧
    ∀ (text : String) (p : Program), parse text = .ok p → p.Canonical :=
  ⟨fun _ _ hp ht => hp.parse_eq_ok ht, fun _ _ h => Program.canonical_of_parse h⟩

/-- A loop around an integer that stands as a bare name. -/
def bareInteger : Program :=
  [.loop 0 (.binary .less (.atom (.name "n")) (.atom (.literal 7))) [.bare "007"]]

/-- Its words with several kinds of white space between them. -/
def bareIntegerText : String :=
  "\n" ++ ("GRRR" ++ " " ++ ("n" ++ "\t\t" ++ ("YIP" ++ "\u2003" ++ ("7" ++ "\r\n" ++
    ("BOW" ++ " " ++ ("007" ++ "\u3000 " ++ "ARRUF")))))) ++ " "

theorem parse_bareIntegerText :
    Layout (Stmt.wordsAll bareInteger) bareIntegerText ∧
    parse bareIntegerText = .ok bareInteger ∧ bareInteger.Canonical := by
  have hl : Layout (Stmt.wordsAll bareInteger) bareIntegerText := by
    refine ⟨"\n", _, " ", by decide, ?_, by decide, rfl⟩
    refine .cons (by decide) (by decide) (.cons (by decide) (by decide) ?_)
    refine .cons (by decide) (by decide) (.cons (by decide) (by decide) ?_)
    exact .cons (by decide) (by decide) (.cons (by decide) (by decide) (.single "ARRUF"))
  have hp := parse_layout.1 bareInteger bareIntegerText ⟨by decide, by decide, by decide⟩ hl
  exact ⟨hl, hp, parse_layout.2 _ _ hp⟩

end Kennel
