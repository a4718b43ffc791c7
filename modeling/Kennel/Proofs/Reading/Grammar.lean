import Kennel.Proofs.Reading.Expression

/-!
# The grammar of programs

`Items n ws p m`: the words `ws` are items of the grammar

    Items ::= empty | Item Items
    Item  ::= Separator | Name | Name Separator* AWOO Expr
            | RUF? Expr Items Terminator Items Terminator | GRRR Expr Items Terminator
    Expr  ::= Operand (Operator Operand)*

whose statements are `p`, with the branches and loops numbered from `n` up to `m` in the order of
their opening words. A reader accepts the words of such items and no others (`program_eq_ok_iff`).

Completeness follows a derivation, with an expression at its end left open in the state. Soundness
follows the words: what has been read so far derives the parts of the state (`Reads`).
-/

namespace Kennel.Reading

open Kennel.Expr (frontSymbols chainSymbols)

/-- Any word that is no keyword. -/
def IsName (w : String) : Prop := Keyword.ofWord? w = none

def IsSeparator (w : String) : Prop := w = "VUH" ∨ w = "BOW"

def IsTerminator (w : String) : Prop := w = "ROWH" ∨ w = "ARRUF" ∨ w = "BORF"

/-- The words are the operands and operators of a well-shaped tree. -/
def Expression (ws : List String) (e : Expr) : Prop := e.WellShaped ∧ Spells ws e.symbols

inductive Items : Nat → List String → List Stmt → Nat → Prop
  | nil (n : Nat) : Items n [] [] n
  | separator {n m : Nat} {w : String} {ws : List String} {p : List Stmt} :
      IsSeparator w → Items n ws p m → Items n (w :: ws) p m
  | name {n m : Nat} {x : String} {ws : List String} {p : List Stmt} :
      IsName x → Items n ws p m → Items n (x :: ws) (.bare x :: p) m
  | assign {n m : Nat} {x : String} {seps es ws : List String} {e : Expr} {p : List Stmt} :
      IsName x → (∀ w ∈ seps, IsSeparator w) → Expression es e → Items n ws p m →
      Items n (x :: (seps ++ "AWOO" :: (es ++ ws))) (.assign x e :: p) m
  | branch {n k l m : Nat} {t u : String} {es ys zs ws : List String} {c : Expr}
      {yes no p : List Stmt} :
      Expression es c → Items (n + 1) ys yes k → IsTerminator t → Items k zs no l →
      IsTerminator u → Items l ws p m →
      Items n ("RUF?" :: (es ++ (ys ++ t :: (zs ++ u :: ws)))) (.branch n c yes no :: p) m
  | loop {n k m : Nat} {t : String} {es ys ws : List String} {c : Expr} {body p : List Stmt} :
      Expression es c → Items (n + 1) ys body k → IsTerminator t → Items k ws p m →
      Items n ("GRRR" :: (es ++ (ys ++ t :: ws))) (.loop n c body :: p) m

/-! ## Words by their class -/

theorem classify_keyword_iff {w : String} {k : Keyword} :
    classify w = .keyword k ↔ Keyword.ofWord? w = some k := by
  unfold classify
  split
  · next k' hk => simp [hk]
  · next hk =>
    rw [hk]
    split <;> simp

theorem mem_spellings {w : String} {k : Keyword} (h : classify w = .keyword k) :
    (w, k) ∈ Keyword.spellings := by
  obtain ⟨before, after, he, -⟩ := List.lookup_eq_some_iff.mp (classify_keyword_iff.mp h)
  rw [he]
  simp

theorem IsName.classify_ne {w : String} (h : IsName w) (k : Keyword) : classify w ≠ .keyword k := by
  intro hk
  rw [classify_keyword_iff, h] at hk
  cases hk

theorem isName_of_classify {w : String} (h : classify w = .integer ∨ classify w = .plain) :
    IsName w := by
  unfold IsName
  cases hk : Keyword.ofWord? w with
  | none => rfl
  | some k =>
    rw [classify_keyword_iff.mpr hk] at h
    rcases h with h | h <;> cases h

theorem isSeparator_iff {w : String} :
    IsSeparator w ↔ classify w = .keyword .thenMark ∨ classify w = .keyword .doMark := by
  constructor
  · rintro (rfl | rfl)
    · exact .inl rfl
    · exact .inr rfl
  · rintro (h | h)
    · exact .inl (by simpa [Keyword.spellings] using mem_spellings h)
    · exact .inr (by simpa [Keyword.spellings] using mem_spellings h)

theorem isTerminator_iff {w : String} :
    IsTerminator w ↔ classify w = .keyword .otherwise ∨ classify w = .keyword .close := by
  constructor
  · rintro (rfl | rfl | rfl)
    · exact .inl rfl
    · exact .inr rfl
    · exact .inr rfl
  · rintro (h | h)
    · exact .inl (by simpa [Keyword.spellings] using mem_spellings h)
    · exact .inr (by simpa [Keyword.spellings] using mem_spellings h)

theorem IsName.not_isOperator {w : String} (h : IsName w) : ¬ IsOperator w :=
  fun ⟨_, ho⟩ => h.classify_ne _ ho

theorem IsSeparator.not_isOperator {w : String} (h : IsSeparator w) : ¬ IsOperator w := by
  rintro ⟨o, ho⟩
  rcases isSeparator_iff.mp h with hc | hc <;> rw [hc] at ho <;> cases ho

theorem IsTerminator.not_isOperator {w : String} (h : IsTerminator w) : ¬ IsOperator w := by
  rintro ⟨o, ho⟩
  rcases isTerminator_iff.mp h with hc | hc <;> rw [hc] at ho <;> cases ho

theorem not_isOperator_of_classify {w : String} {k : Keyword} (h : classify w = .keyword k)
    (hk : ∀ o, k ≠ .op o) : ¬ IsOperator w := by
  rintro ⟨o, ho⟩
  rw [h] at ho
  cases ho
  exact hk o rfl

namespace State

theorem inBlock_name (s : State) {x : String} (h : IsName x) :
    s.inBlock x = .ok { s with block := .bare x :: s.block } := by
  have := h.classify_ne
  unfold inBlock
  split <;> simp_all

theorem inBlock_separator (s : State) {w : String} (h : IsSeparator w) : s.inBlock w = .ok s := by
  unfold inBlock
  rcases isSeparator_iff.mp h with hc | hc <;> rw [hc]

theorem inBlock_terminator (s : State) {w : String} (h : IsTerminator w) :
    ∃ k, s.inBlock w = s.terminate k := by
  unfold inBlock
  rcases isTerminator_iff.mp h with hc | hc <;> rw [hc]
  · exact ⟨_, rfl⟩
  · exact ⟨_, rfl⟩

/-- What taking a word does where a statement may begin. -/
theorem inBlock_cases {s s' : State} {w : String} (h : s.inBlock w = .ok s') :
    (IsName w ∧ s' = { s with block := .bare w :: s.block }) ∨
    (IsSeparator w ∧ s' = s) ∨
    (w = "AWOO" ∧ ∃ x rest, s.block = .bare x :: rest ∧
      s' = { s with block := rest, phase := .operand (.value x) [] }) ∨
    (w = "RUF?" ∧
      s' = { s with phase := .operand (.branchTest s.nextId) [], nextId := s.nextId + 1 }) ∨
    (w = "GRRR" ∧
      s' = { s with phase := .operand (.loopTest s.nextId) [], nextId := s.nextId + 1 }) ∨
    (IsTerminator w ∧ ∃ k, s.terminate k = .ok s') := by
  unfold inBlock at h
  split at h
  · next hc => cases h; exact .inl ⟨isName_of_classify (.inl hc), rfl⟩
  · next hc => cases h; exact .inl ⟨isName_of_classify (.inr hc), rfl⟩
  · next hc =>
    refine .inr (.inr (.inl ⟨by simpa [Keyword.spellings] using mem_spellings hc, ?_⟩))
    unfold assign at h
    split at h
    · next x rest hb => cases h; exact ⟨x, rest, hb, rfl⟩
    all_goals cases h
  · next hc =>
    cases h
    exact .inr (.inr (.inr (.inl ⟨by simpa [Keyword.spellings] using mem_spellings hc, rfl⟩)))
  · next hc =>
    cases h
    exact .inr (.inr (.inr (.inr (.inl
      ⟨by simpa [Keyword.spellings] using mem_spellings hc, rfl⟩))))
  · next hc => cases h; exact .inr (.inl ⟨isSeparator_iff.mpr (.inl hc), rfl⟩)
  · next hc => cases h; exact .inr (.inl ⟨isSeparator_iff.mpr (.inr hc), rfl⟩)
  · next hc =>
    exact .inr (.inr (.inr (.inr (.inr ⟨isTerminator_iff.mpr (.inl hc), _, h⟩))))
  · next hc =>
    exact .inr (.inr (.inr (.inr (.inr ⟨isTerminator_iff.mpr (.inr hc), _, h⟩))))
  · cases h

end State

/-! ## Every derivation is read -/

/-- The symbols of a tree are those of a chain. -/
theorem exists_chainSymbols (e : Expr) : ∃ front last, e.symbols = chainSymbols front last := by
  induction e with
  | atom a => exact ⟨[], a, rfl⟩
  | binary op l r ihl ihr =>
    obtain ⟨front, last, hl⟩ := ihl
    obtain ⟨front', last', hr⟩ := ihr
    refine ⟨front ++ (last, op) :: front', last', ?_⟩
    simp [Expr.symbols, hl, hr, chainSymbols, frontSymbols]

namespace State

theorem feed_expression {s : State} {p : Purpose} {ws : List String} {e : Expr}
    (hs : s.phase = .operand p []) (he : Expression ws e) :
    ∃ s', s.feed ws = .ok s' ∧ s'.settle = s.close e p := by
  obtain ⟨front, last, hsym⟩ := exists_chainSymbols e
  have hw := he.2
  rw [hsym] at hw
  refine ⟨_, feed_chain front hs hw, ?_⟩
  rw [Expr.eq_ofChain he.1 hsym]
  cases p <;> simp [settle, close]

theorem feed_separators {s : State} (hs : s.phase = .statement) {ws : List String}
    (hw : ∀ w ∈ ws, IsSeparator w) : s.feed ws = .ok s := by
  induction ws with
  | nil => rfl
  | cons w ws ih =>
    rw [List.forall_mem_cons] at hw
    rw [feed_cons ((step_of_statement hs w).trans (inBlock_separator s hw.1)), ih hw.2]

variable {s : State} {levels : List Level} {block : List Stmt} {n : Nat}

/-- A word that is no operator is taken as from the settled state. -/
theorem step_of_settle {w : String} (hs : s.settle = ⟨levels, block, .statement, n⟩)
    (hw : ¬ IsOperator w) : s.step w = inBlock ⟨levels, block, .statement, n⟩ w := by
  rw [← step_settle hw, hs, step_of_statement rfl]

theorem step_terminator {t : String} {l : Level}
    (hs : s.settle = ⟨l :: levels, block, .statement, n⟩) (ht : IsTerminator t) :
    ∃ k, s.step t = terminate ⟨l :: levels, block, .statement, n⟩ k := by
  obtain ⟨k, hk⟩ := inBlock_terminator ⟨l :: levels, block, .statement, n⟩ ht
  exact ⟨k, by rw [step_of_settle hs ht.not_isOperator, hk]⟩

end State

/-- Reading the words of items adds their statements to the innermost block. -/
theorem Items.feed {n m : Nat} {ws : List String} {p : List Stmt} (h : Items n ws p m) :
    ∀ {s : State} {levels : List Level} {block : List Stmt},
      s.settle = ⟨levels, block, .statement, n⟩ →
      ∃ s', s.feed ws = .ok s' ∧ s'.settle = ⟨levels, p.reverse ++ block, .statement, m⟩ := by
  induction h with
  | nil n => intro s levels block hs; exact ⟨s, rfl, hs⟩
  | separator hw _ ih =>
    intro s levels block hs
    have hstep := State.step_of_settle hs hw.not_isOperator
    rw [State.inBlock_separator _ hw] at hstep
    rw [State.feed_cons hstep]
    exact ih rfl
  | @name n m x ws p hx _ ih =>
    intro s levels block hs
    have hstep := State.step_of_settle hs hx.not_isOperator
    rw [State.inBlock_name _ hx] at hstep
    rw [State.feed_cons hstep]
    obtain ⟨s', hf, hset⟩ := ih (s := ⟨levels, .bare x :: block, .statement, n⟩) rfl
    exact ⟨s', hf, by simpa using hset⟩
  | @assign n m x seps es ws e p hx hseps he _ ih =>
    intro s levels block hs
    have hstep := State.step_of_settle hs hx.not_isOperator
    rw [State.inBlock_name _ hx] at hstep
    obtain ⟨s1, hf1, hset1⟩ :=
      State.feed_expression (s := ⟨levels, block, .operand (.value x) [], n⟩) rfl he
    obtain ⟨s2, hf2, hset2⟩ := ih hset1
    refine ⟨s2, ?_, by simpa using hset2⟩
    rw [State.feed_cons hstep, State.feed_append (State.feed_separators rfl hseps),
      State.feed_cons rfl, State.feed_append hf1, hf2]
  | @branch n k l m t u es ys zs ws c yes no p hc _ ht _ hu _ ihy ihn ih =>
    intro s levels block hs
    have hstep := State.step_of_settle hs
      (not_isOperator_of_classify (w := "RUF?") rfl (fun o => Keyword.noConfusion))
    obtain ⟨s1, hf1, hset1⟩ :=
      State.feed_expression (s := ⟨levels, block, .operand (.branchTest n) [], n + 1⟩) rfl hc
    obtain ⟨s2, hf2, hset2⟩ := ihy hset1
    obtain ⟨_, hstep2⟩ := State.step_terminator hset2 ht
    obtain ⟨s3, hf3, hset3⟩ := ihn
      (s := ⟨⟨block, .elseBlock n c (yes.reverse ++ []).reverse⟩ :: levels, [], .statement, k⟩) rfl
    obtain ⟨_, hstep3⟩ := State.step_terminator hset3 hu
    obtain ⟨s4, hf4, hset4⟩ := ih (s := ⟨levels, .branch n c (yes.reverse ++ []).reverse
      (no.reverse ++ []).reverse :: block, .statement, l⟩) rfl
    refine ⟨s4, ?_, by simpa using hset4⟩
    rw [State.feed_cons hstep, State.feed_append hf1, State.feed_append hf2,
      State.feed_cons hstep2, State.feed_append hf3, State.feed_cons hstep3, hf4]
  | @loop n k m t es ys ws c body p hc _ ht _ ihb ih =>
    intro s levels block hs
    have hstep := State.step_of_settle hs
      (not_isOperator_of_classify (w := "GRRR") rfl (fun o => Keyword.noConfusion))
    obtain ⟨s1, hf1, hset1⟩ :=
      State.feed_expression (s := ⟨levels, block, .operand (.loopTest n) [], n + 1⟩) rfl hc
    obtain ⟨s2, hf2, hset2⟩ := ihb hset1
    obtain ⟨_, hstep2⟩ := State.step_terminator hset2 ht
    obtain ⟨s3, hf3, hset3⟩ :=
      ih (s := ⟨levels, .loop n c (body.reverse ++ []).reverse :: block, .statement, k⟩) rfl
    refine ⟨s3, ?_, by simpa using hset3⟩
    rw [State.feed_cons hstep, State.feed_append hf1, State.feed_append hf2,
      State.feed_cons hstep2, hf3]

/-! ## Nothing else is read -/

theorem Items.append {n k m : Nat} {ws vs : List String} {p q : List Stmt} (h : Items n ws p k)
    (h' : Items k vs q m) : Items n (ws ++ vs) (p ++ q) m := by
  induction h with
  | nil n => exact h'
  | separator hw _ ih => exact .separator hw (ih h')
  | name hx _ ih => exact .name hx (ih h')
  | assign hx hseps he _ ih => simpa using Items.assign hx hseps he (ih h')
  | branch hc hy ht hn hu _ _ _ ih => simpa using Items.branch hc hy ht hn hu (ih h')
  | loop hc hb ht _ _ ih => simpa using Items.loop hc hb ht (ih h')

theorem Items.eq_separators {n m : Nat} {ws : List String} (h : Items n ws [] m) :
    n = m ∧ ∀ w ∈ ws, IsSeparator w := by
  generalize hp : ([] : List Stmt) = p at h
  induction h with
  | nil n => exact ⟨rfl, by simp⟩
  | separator hw _ ih =>
    obtain ⟨he, hs⟩ := ih hp
    exact ⟨he, List.forall_mem_cons.mpr ⟨hw, hs⟩⟩
  | name | assign | branch | loop => cases hp

/-- The words of the first statement come first. -/
theorem Items.uncons {n m : Nat} {ws : List String} {s : Stmt} {p : List Stmt}
    (h : Items n ws (s :: p) m) :
    ∃ vs us k, ws = vs ++ us ∧ Items n vs [s] k ∧ Items k us p m := by
  generalize hq : s :: p = q at h
  induction h with
  | nil n => cases hq
  | separator hw _ ih =>
    obtain ⟨vs, us, k, rfl, hs, hp⟩ := ih hq
    exact ⟨_, us, k, rfl, .separator hw hs, hp⟩
  | name hx hr => cases hq; exact ⟨_, _, _, rfl, .name hx (.nil _), hr⟩
  | assign hx hseps he hr =>
    cases hq; exact ⟨_, _, _, by simp, .assign hx hseps he (.nil _), hr⟩
  | branch hc hy ht hn hu hr =>
    cases hq; exact ⟨_, _, _, by simp, .branch hc hy ht hn hu (.nil _), hr⟩
  | loop hc hb ht hr => cases hq; exact ⟨_, _, _, by simp, .loop hc hb ht (.nil _), hr⟩

theorem Items.unappend {n m : Nat} {ws : List String} {p q : List Stmt}
    (h : Items n ws (p ++ q) m) :
    ∃ vs us k, ws = vs ++ us ∧ Items n vs p k ∧ Items k us q m := by
  induction p generalizing n ws with
  | nil => exact ⟨[], ws, n, rfl, .nil n, h⟩
  | cons s p ih =>
    obtain ⟨vs, us, k, rfl, hs, hr⟩ := h.uncons
    obtain ⟨vs', us', k', rfl, hp, hq⟩ := ih hr
    exact ⟨vs ++ vs', us', k', by simp, hs.append hp, hq⟩

/-- Around a bare name that stands alone there are only separators. -/
theorem Items.of_bare {n m : Nat} {ws : List String} {x : String} (h : Items n ws [.bare x] m) :
    ∃ vs seps, ws = vs ++ x :: seps ∧ Items n vs [] m ∧ IsName x ∧ ∀ w ∈ seps, IsSeparator w := by
  generalize hq : [Stmt.bare x] = q at h
  induction h with
  | separator hw _ ih =>
    obtain ⟨vs, seps, rfl, hi, hx, hs⟩ := ih hq
    exact ⟨_ :: vs, seps, rfl, .separator hw hi, hx, hs⟩
  | name hx hr =>
    cases hq
    obtain ⟨rfl, hs⟩ := hr.eq_separators
    exact ⟨[], _, rfl, .nil _, hx, hs⟩
  | nil | assign | branch | loop => cases hq

/-- The words that open constructs, and the next number after them. -/
inductive Opened : List String → List Level → Nat → Prop
  | nil : Opened [] [] 0
  | thenBlock {ws vs es : List String} {outer : List Level} {n m : Nat} {before : List Stmt}
      {c : Expr} : Opened ws outer n → Items n vs before.reverse m → Expression es c →
      Opened (ws ++ (vs ++ "RUF?" :: es)) (⟨before, .thenBlock m c⟩ :: outer) (m + 1)
  | elseBlock {ws vs es ys : List String} {t : String} {outer : List Level} {n m k : Nat}
      {before yes : List Stmt} {c : Expr} : Opened ws outer n → Items n vs before.reverse m →
      Expression es c → Items (m + 1) ys yes k → IsTerminator t →
      Opened (ws ++ (vs ++ "RUF?" :: (es ++ (ys ++ [t])))) (⟨before, .elseBlock m c yes⟩ :: outer) k
  | loopBlock {ws vs es : List String} {outer : List Level} {n m : Nat} {before : List Stmt}
      {c : Expr} : Opened ws outer n → Items n vs before.reverse m → Expression es c →
      Opened (ws ++ (vs ++ "GRRR" :: es)) (⟨before, .loopBlock m c⟩ :: outer) (m + 1)

/-- The words that announce an expression, and the next numbers before and after them. -/
inductive Announced : Nat → List String → Purpose → Nat → Prop
  | value {n : Nat} {x : String} {seps : List String} :
      IsName x → (∀ w ∈ seps, IsSeparator w) →
      Announced n (x :: (seps ++ ["AWOO"])) (.value x) n
  | branchTest (n : Nat) : Announced n ["RUF?"] (.branchTest n) (n + 1)
  | loopTest (n : Nat) : Announced n ["GRRR"] (.loopTest n) (n + 1)

/-- The words of the present phase. -/
inductive Pending : Nat → List String → Phase → Nat → Prop
  | statement (n : Nat) : Pending n [] .statement n
  | operand {n m : Nat} {ws vs : List String} {p : Purpose} {front : List (Atom × Op)} :
      Announced n ws p m → Spells vs (frontSymbols front.reverse) →
      Pending n (ws ++ vs) (.operand p front) m
  | operator {n m : Nat} {ws vs : List String} {p : Purpose} {front : List (Atom × Op)}
      {last : Atom} :
      Announced n ws p m → Spells vs (chainSymbols front.reverse last) →
      Pending n (ws ++ vs) (.operator p front last) m

/-- The words that lead to a state: those of the open constructs, of the innermost block and of the
phase. -/
inductive Reads : List String → State → Prop
  | intro {ws vs us : List String} {levels : List Level} {block : List Stmt} {phase : Phase}
      {n k m : Nat} : Opened ws levels n → Items n vs block.reverse k → Pending k us phase m →
      Reads (ws ++ (vs ++ us)) ⟨levels, block, phase, m⟩

theorem Announced.pending {n m : Nat} {ws : List String} {p : Purpose} (h : Announced n ws p m) :
    Pending n ws (.operand p []) m := by
  have hs : Spells [] (frontSymbols ([] : List (Atom × Op)).reverse) := rfl
  simpa using Pending.operand h hs

theorem Opened.reads {ws : List String} {levels : List Level} {n : Nat} (h : Opened ws levels n) :
    Reads ws ⟨levels, [], .statement, n⟩ := by
  have hi : Items n [] ([] : List Stmt).reverse n := .nil n
  simpa using Reads.intro h hi (.statement n)

theorem Reads.settle {ws : List String} {s : State} (h : Reads ws s) : Reads ws s.settle := by
  obtain ⟨ho, hi, hp⟩ := h
  cases hp with
  | statement => exact .intro ho hi (.statement _)
  | operand ha hs => exact .intro ho hi (.operand ha hs)
  | @operator m us vs p front last ha hs =>
    have he : Expression vs (.ofChain front.reverse last) :=
      ⟨Expr.wellShaped_ofChain .., by rwa [Expr.symbols_ofChain]⟩
    cases ha with
    | value hx hseps =>
      have hi' := hi.append (.assign hx hseps he (.nil _))
      rw [← List.reverse_cons] at hi'
      simpa [State.settle, State.close] using Reads.intro ho hi' (.statement _)
    | branchTest =>
      simpa [State.settle, State.close] using (Opened.thenBlock ho hi he).reads
    | loopTest =>
      simpa [State.settle, State.close] using (Opened.loopBlock ho hi he).reads

theorem Reads.terminate {ws vs : List String} {levels : List Level} {block : List Stmt}
    {n m : Nat} {t : String} {k : Keyword} {s' : State} (ho : Opened ws levels n)
    (hi : Items n vs block.reverse m) (ht : IsTerminator t)
    (hs : State.terminate ⟨levels, block, .statement, m⟩ k = .ok s') :
    Reads (ws ++ (vs ++ [t])) s' := by
  unfold State.terminate at hs
  cases ho with
  | nil => cases hs
  | thenBlock ho hb hc =>
    cases hs
    simpa using (Opened.elseBlock ho hb hc hi ht).reads
  | elseBlock ho hb hc hy hu =>
    cases hs
    have hi' := hb.append (.branch hc hy hu hi ht (.nil _))
    rw [← List.reverse_cons] at hi'
    simpa using Reads.intro ho hi' (.statement _)
  | loopBlock ho hb hc =>
    cases hs
    have hi' := hb.append (.loop hc hi ht (.nil _))
    rw [← List.reverse_cons] at hi'
    simpa using Reads.intro ho hi' (.statement _)

theorem Reads.inBlock {ws : List String} {s s' : State} {w : String} (h : Reads ws s)
    (hs : s.phase = .statement) (hw : s.inBlock w = .ok s') : Reads (ws ++ [w]) s' := by
  obtain ⟨ho, hi, hp⟩ := h
  cases hs
  cases hp
  rcases State.inBlock_cases hw with ⟨hx, rfl⟩ | ⟨hx, rfl⟩ | ⟨rfl, x, rest, rfl, rfl⟩ | ⟨rfl, rfl⟩ |
    ⟨rfl, rfl⟩ | ⟨ht, k, hk⟩
  · have hi' := hi.append (.name hx (.nil _))
    rw [← List.reverse_cons] at hi'
    simpa using Reads.intro ho hi' (.statement _)
  · have hi' := hi.append (.separator hx (.nil _))
    rw [List.append_nil] at hi'
    simpa using Reads.intro ho hi' (.statement _)
  · rw [List.reverse_cons] at hi
    obtain ⟨vs, us, k, rfl, hr, hb⟩ := hi.unappend
    obtain ⟨vs', seps, rfl, hv, hx, hseps⟩ := hb.of_bare
    have hi' := hr.append hv
    rw [List.append_nil] at hi'
    simpa using Reads.intro ho hi' (Announced.value hx hseps).pending
  · simpa using Reads.intro ho hi (Announced.branchTest _).pending
  · simpa using Reads.intro ho hi (Announced.loopTest _).pending
  · simpa using Reads.terminate ho hi ht hk

theorem State.step_operand_inv {s s' : State} {p : Purpose} {front : List (Atom × Op)} {w : String}
    (hs : s.phase = .operand p front) (h : s.step w = .ok s') :
    ∃ a, symbol? w = some (.operand a) ∧ s' = { s with phase := .operator p front a } := by
  simp only [step, hs, inOperand] at h
  unfold symbol?
  split at h
  · cases h; exact ⟨_, by simp_all, rfl⟩
  · split at h
    · cases h; exact ⟨_, by simp_all, rfl⟩
    · cases h
  · cases h
  · cases h

/-- One more word. -/
theorem Reads.step {ws : List String} {s s' : State} {w : String} (h : Reads ws s)
    (hw : s.step w = .ok s') : Reads (ws ++ [w]) s' := by
  cases hph : s.phase with
  | statement =>
    rw [State.step_of_statement hph] at hw
    exact h.inBlock hph hw
  | operand p front =>
    obtain ⟨a, ha, rfl⟩ := State.step_operand_inv hph hw
    obtain ⟨ho, hi, hp⟩ := h
    cases hph
    cases hp with
    | operand hann hs =>
      have hs' : Spells _ (chainSymbols front.reverse a) := hs.append (Spells.singleton ha)
      simpa using Reads.intro ho hi (.operator hann hs')
  | operator p front last =>
    by_cases hop : IsOperator w
    · obtain ⟨o, hc⟩ := hop
      have ho := symbol?_operator.mpr hc
      rw [State.step_operator hph ho] at hw
      cases hw
      obtain ⟨hopen, hi, hp⟩ := h
      cases hph
      cases hp with
      | operator hann hs =>
        have hs' := hs.append (Spells.singleton ho)
        rw [← Expr.frontSymbols_snoc, ← List.reverse_cons] at hs'
        simpa using Reads.intro hopen hi (.operand hann hs')
    · have hset : s.settle.phase = .statement := by
        simp only [State.settle, hph, State.close_phase]
      rw [← State.step_settle hop, State.step_of_statement hset] at hw
      exact h.settle.inBlock hset hw

theorem Reads.feed {ws vs : List String} {s s' : State} (h : Reads ws s)
    (hv : s.feed vs = .ok s') : Reads (ws ++ vs) s' := by
  induction vs generalizing ws s with
  | nil => cases hv; simpa using h
  | cons v vs ih =>
    simp only [State.feed] at hv
    split at hv
    · next t ht => simpa using ih (h.step ht) hv
    · cases hv

theorem State.program_inv {s : State} {p : Program} (h : s.program = .ok p) :
    s.phase = .statement ∧ s.levels = [] ∧ p = s.block.reverse := by
  unfold program at h
  split at h
  · next hp hl => cases h; exact ⟨hp, hl, rfl⟩
  · cases h

/-- A state in which the words may end has read items. -/
theorem Reads.finish {ws : List String} {s : State} {p : Program} (h : Reads ws s)
    (hp : s.finish = .ok p) : ∃ m, Items 0 ws p m := by
  rw [s.finish_eq] at hp
  obtain ⟨hph, hl, rfl⟩ := State.program_inv hp
  have h' := h.settle
  generalize s.settle = t at h' hph hl
  obtain ⟨ho, hi, hpend⟩ := h'
  cases hph
  cases hl
  cases ho
  cases hpend
  exact ⟨_, by simpa using hi⟩

theorem readFrom_eq_ok {s : State} {passed ws : List String} {p : Program}
    (h : (readFrom s passed ws).1 = .ok p) : ∃ s', s.feed ws = .ok s' ∧ s'.finish = .ok p := by
  induction ws generalizing s passed with
  | nil => exact ⟨s, rfl, h⟩
  | cons w ws ih =>
    unfold readFrom at h
    split at h
    · next t ht =>
      obtain ⟨s', hf, hp⟩ := ih h
      exact ⟨s', by rw [State.feed_cons ht, hf], hp⟩
    · cases h
    · cases h

theorem items_of_program {ws : List String} {p : Program}
    (h : (Reader.ofWords ws).program.1 = .ok p) : ∃ m, Items 0 ws p m := by
  obtain ⟨s, hf, hp⟩ := readFrom_eq_ok h
  have hr : Reads ([] ++ ws) s := Opened.nil.reads.feed hf
  exact hr.finish hp

theorem Items.program_eq_ok {m : Nat} {ws : List String} {p : Program} (h : Items 0 ws p m) :
    (Reader.ofWords ws).program.1 = .ok p := by
  obtain ⟨s, hf, hset⟩ := h.feed (s := .start 0) rfl
  have hr := readFrom_feed hf [] []
  rw [List.append_nil] at hr
  show (readFrom (.start 0) [] ws).1 = .ok p
  rw [hr]
  show s.finish = .ok p
  rw [s.finish_eq, hset]
  simp [State.program]

/-- A reader in front of the words accepts what the grammar derives, with the program of the
derivation, and there is at most one. -/
theorem program_eq_ok_iff (ws : List String) :
    (∀ p, (Reader.ofWords ws).program.1 = .ok p ↔ ∃ m, Items 0 ws p m) ∧
    ∀ p q m k, Items 0 ws p m → Items 0 ws q k → p = q := by
  refine ⟨fun p => ⟨items_of_program, fun ⟨m, h⟩ => h.program_eq_ok⟩, ?_⟩
  intro p q m k hp hq
  have h := hp.program_eq_ok
  rw [hq.program_eq_ok] at h
  cases h
  rfl

end Kennel.Reading
