import Kennel.Cli.Run
import Kennel.Proofs.Cli.Disk
import Kennel.Proofs.Eval.Limit
import Kennel.Proofs.Text.Decimal

/-!
# What a command does

All stages of a command but the last only look at what they are given, so a command that fails has
no effect, and one that succeeds has exactly one (`run_effect`): a line with a value, or a listing
that goes to one file or to standard output. Without a path for its output, a command that reads a
file leaves this file alone, unless its listing goes to the same file (`run_keeps_input`). How the
arguments are read makes no difference to any of this.
-/

namespace Kennel.Cli

/-- The bytes that a command reads. -/
def Options.bytes (o : Options) (stdin : ByteArray) (disk : Disk) : Option ByteArray :=
  match o.input with
  | some path => disk.read? path
  | none => some stdin

/-- The arguments make sense, the register count is in range, and the input can be read, is text
and is a program. -/
structure Accepts (options : List String → Option Options) (args : List String)
    (stdin : ByteArray) (disk : Disk) (o : Options) (limit : Nat) (text : String) (p : Program) :
    Prop where
  arguments : options args = some o
  limit : o.registerLimit = .ok limit
  source : ∃ bytes, o.bytes stdin disk = some bytes ∧ String.fromUTF8? bytes = some text
  program : Reading.parse text = .ok p

/-- A text of lines, each of them ended by a line break. -/
def IsLines (lines : List String) (text : String) : Prop :=
  text.toList = lines.flatMap fun line => line.toList ++ ['\n']

/-- The listing goes to the path of the output, or else beside the input. -/
def Options.SendsTo (o : Options) (path : String) : Prop :=
  o.output = some path ∨ o.output = none ∧ o.input.map Path.listing = some path

/-- How a value is shown. -/
def valueText : Option Int64 → String
  | some v => Text.signed v.toInt
  | none => "(no value)"

/-- The one effect of a command on a program. -/
inductive Effect (fuel : Nat) (o : Options) (limit : Nat) (p : Program) (disk : Disk)
    (out : Outcome) : Prop
  | value (v : Option Int64) : o.eval = true → Eval.evaluate fuel p = some (.ok v) →
      IsLines [valueText v] out.stdout → '\n' ∉ (valueText v).toList → out.disk = disk →
      Effect fuel o limit p disk out
  | file (l : Asm.Listing) (text path : String) (place : Place) : o.eval = false →
      Lower.generate limit p = .ok l → IsLines l.lines text →
      o.SendsTo path → disk.locate path = some place → disk.isDir place = false →
      disk.Saved out.disk place text.toUTF8 → out.stdout = "" →
      Effect fuel o limit p disk out
  | print (l : Asm.Listing) : o.eval = false → Lower.generate limit p = .ok l →
      o.output = none → o.input = none → IsLines l.lines out.stdout → out.disk = disk →
      Effect fuel o limit p disk out

/-! ## Stages -/

theorem Options.source_eq_ok_iff {o : Options} {bytes : Option ByteArray} {text : String} :
    o.source bytes = .ok text ↔ ∃ b, bytes = some b ∧ String.fromUTF8? b = some text := by
  rw [← Option.bind_eq_some_iff]
  cases hb : bytes.bind String.fromUTF8? with
  | some t => simp [source, hb]
  | none => cases hi : o.input <;> simp [source, hb, hi]

section

variable {fuel limit : Nat} {o : Options} {text : String} {p : Program}

/-- Where a listing is put. -/
def Options.deliver (o : Options) (l : Asm.Listing) : Action :=
  match o.destination with
  | some path => .save path (listingText l)
  | none => .print (listingText l)

theorem Options.action_of_value (hp : Reading.parse text = .ok p) (he : o.eval = true)
    {v : Option Int64} (hv : Eval.evaluate fuel p = some (.ok v)) :
    o.action fuel limit text = some (.ok (.print (valueLine v))) := by
  simp only [action, hp, he, hv, if_true, Option.map_some]

theorem Options.action_of_listing (hp : Reading.parse text = .ok p) (he : o.eval = false)
    {l : Asm.Listing} (hl : Lower.generate limit p = .ok l) :
    o.action fuel limit text = some (.ok (o.deliver l)) := by
  simp only [action, deliver, hp, he, hl, Bool.false_eq_true, if_false]
  cases o.destination <;> rfl

/-- What is put out is the value of a program or its listing. -/
theorem Options.action_cases {a : Action} (h : o.action fuel limit text = some (.ok a)) :
    ∃ p, Reading.parse text = .ok p ∧
      ((o.eval = true ∧ ∃ v, Eval.evaluate fuel p = some (.ok v) ∧ a = .print (valueLine v)) ∨
        (o.eval = false ∧ ∃ l, Lower.generate limit p = .ok l ∧ a = o.deliver l)) := by
  cases hp : Reading.parse text with
  | error f =>
    simp only [action, hp] at h
    cases h
  | ok p =>
    refine ⟨p, rfl, ?_⟩
    cases he : o.eval with
    | true =>
      refine .inl ⟨rfl, ?_⟩
      simp only [action, hp, he, if_true, Option.map_eq_some_iff] at h
      obtain ⟨result, hv, hresult⟩ := h
      cases result with
      | error c => cases hresult
      | ok v =>
        cases hresult
        exact ⟨v, hv, rfl⟩
    | false =>
      refine .inr ⟨rfl, ?_⟩
      cases hl : Lower.generate limit p with
      | error f =>
        simp only [action, hp, he, hl, Bool.false_eq_true, if_false] at h
        cases h
      | ok l =>
        rw [action_of_listing hp he hl] at h
        cases h
        exact ⟨l, rfl, rfl⟩

/-- How a command ends that has this to put out. -/
def Outcome.perform (disk : Disk) : Action → Outcome
  | .print text => ⟨0, text, some "", disk⟩
  | .save path text =>
    match disk.write? path text.toUTF8 with
    | some disk => ⟨0, "", some "", disk⟩
    | none => failed disk (cannotCreate path)

/-- How a command ends that has come to this result. -/
def Outcome.conclude (disk : Disk) : Except String Action → Outcome
  | .error m => .failed disk m
  | .ok a => .perform disk a

variable {options : List String → Option Options} {args : List String} {stdin : ByteArray}
  {disk : Disk} {out : Outcome}

theorem fetch_run (fuel : Nat) (o : Options) (s : Scene) :
    ((Scene.host fuel).fetch o).run s = some (o.bytes s.stdin s.disk, s) := by
  unfold Host.fetch Options.bytes
  cases o.input <;> rfl

theorem await_run (fuel : Nat) (result : Nat → Option (Except String Action)) (s : Scene) :
    ((Scene.host fuel).await result).run s = (result fuel).map (·, s) := by
  show (result fuel >>= fun a => some (a, s)) = _
  cases result fuel <;> rfl

theorem save_run (fuel : Nat) (path : String) (contents : ByteArray) (s : Scene) :
    ((Scene.host fuel).save path contents).run s =
      match s.disk.write? path contents with
      | some disk => some (true, { s with disk := disk })
      | none => some (false, s) := by
  cases hw : s.disk.write? path contents <;>
    · simp only [Scene.host, StateT.run_bind, StateT.run_get, pure_bind, hw]
      rfl

theorem endOf_fail (fuel : Nat) (m : String) :
    endOf stdin disk ((Scene.host fuel).fail m) = some (.failed disk m) := by
  show some (Outcome.mk 1 "" (some ("" ++ m ++ "\n")) disk) = _
  rw [String.empty_append]
  rfl

theorem endOf_perform (fuel : Nat) (a : Action) :
    endOf stdin disk ((Scene.host fuel).perform a) = some (.perform disk a) := by
  cases a with
  | print text =>
    show some (Outcome.mk 0 ("" ++ text) (some "") disk) = _
    rw [String.empty_append]
    rfl
  | save path text =>
    simp only [endOf, Host.perform, StateT.run_bind, save_run, Outcome.perform]
    cases disk.write? path text.toUTF8 with
    | some disk' => rfl
    | none => exact endOf_fail fuel (cannotCreate path)

theorem run_of_misuse (ho : options args = none) :
    runWith options fuel args stdin disk = some (.misused disk) := by
  simp only [runWith, command, ho]
  rfl

theorem run_of_limit (ho : options args = some o) {m : String} (hl : o.registerLimit = .error m) :
    runWith options fuel args stdin disk = some (.failed disk m) := by
  simp only [runWith, command, ho, hl]
  exact endOf_fail fuel m

theorem run_of_unreadable (ho : options args = some o) (hl : o.registerLimit = .ok limit)
    {m : String} (hs : o.source (o.bytes stdin disk) = .error m) :
    runWith options fuel args stdin disk = some (.failed disk m) := by
  simp only [runWith, command, ho, hl, endOf, StateT.run_bind, fetch_run, Option.bind_eq_bind,
    Option.bind_some, hs]
  exact endOf_fail fuel m

theorem run_of_source (ho : options args = some o) (hl : o.registerLimit = .ok limit)
    (hs : o.source (o.bytes stdin disk) = .ok text) :
    runWith options fuel args stdin disk = (o.action fuel limit text).map (.conclude disk) := by
  simp only [runWith, command, ho, hl, endOf, StateT.run_bind, fetch_run, Option.bind_eq_bind,
    Option.bind_some, hs, await_run]
  cases o.action fuel limit text with
  | none => rfl
  | some result =>
    cases result with
    | error m => exact endOf_fail fuel m
    | ok a => exact endOf_perform fuel a

theorem Accepts.run_eq (h : Accepts options args stdin disk o limit text p) {a : Action}
    (ha : o.action fuel limit text = some (.ok a)) :
    runWith options fuel args stdin disk = some (.perform disk a) := by
  rw [run_of_source h.arguments h.limit (Options.source_eq_ok_iff.mpr h.source), ha]
  rfl

variable (options args stdin disk) in
/-- A command fails before it comes to the program, or it concludes with what the program asks
for. -/
theorem run_stages :
    (∃ stderr, ∀ fuel, runWith options fuel args stdin disk = some ⟨1, "", stderr, disk⟩) ∨
    ∃ o limit text, options args = some o ∧ o.registerLimit = .ok limit ∧
      o.source (o.bytes stdin disk) = .ok text ∧
      ∀ fuel, runWith options fuel args stdin disk =
        (o.action fuel limit text).map (.conclude disk) := by
  cases ho : options args with
  | none => exact .inl ⟨none, fun fuel => run_of_misuse ho⟩
  | some o =>
    cases hl : o.registerLimit with
    | error m => exact .inl ⟨some (m ++ "\n"), fun fuel => run_of_limit ho hl⟩
    | ok limit =>
      cases hs : o.source (o.bytes stdin disk) with
      | error m => exact .inl ⟨some (m ++ "\n"), fun fuel => run_of_unreadable ho hl hs⟩
      | ok text => exact .inr ⟨o, limit, text, rfl, hl, hs, fun fuel => run_of_source ho hl hs⟩

/-- A command fails before the output, or all that it does is to put something out. -/
theorem run_cases (h : runWith options fuel args stdin disk = some out) :
    (∃ stderr, out = ⟨1, "", stderr, disk⟩) ∨
    ∃ o limit text p a, Accepts options args stdin disk o limit text p ∧
      o.action fuel limit text = some (.ok a) ∧ out = .perform disk a := by
  rcases run_stages options args stdin disk with
    ⟨stderr, hrun⟩ | ⟨o, limit, text, ho, hl, hs, hrun⟩
  · rw [hrun] at h
    exact .inl ⟨stderr, (Option.some.inj h).symm⟩
  · rw [hrun, Option.map_eq_some_iff] at h
    obtain ⟨result, ha, rfl⟩ := h
    cases result with
    | error m => exact .inl ⟨_, rfl⟩
    | ok a =>
      obtain ⟨p, hp, -⟩ := Options.action_cases ha
      exact .inr ⟨o, limit, text, p, a, ⟨ho, hl, Options.source_eq_ok_iff.mp hs, hp⟩, ha, rfl⟩

theorem Options.action_of_le {more : Nat} {result : Except String Action}
    (h : o.action fuel limit text = some result) (hle : fuel ≤ more) :
    o.action more limit text = some result := by
  unfold action at h ⊢
  cases hp : Reading.parse text with
  | error f => simpa only [hp] using h
  | ok p =>
    simp only [hp] at h ⊢
    split
    · next he =>
      simp only [if_pos he, Option.map_eq_some_iff] at h
      obtain ⟨value, hv, rfl⟩ := h
      simp only [Eval.evaluate, Option.map_eq_some_iff] at hv
      obtain ⟨ended, hrun, rfl⟩ := hv
      simp only [Eval.evaluate, Eval.run_of_le hrun hle, Option.map_some]
    · next he => simpa only [if_neg he] using h

theorem run_of_more_fuel {more : Nat} (h : runWith options fuel args stdin disk = some out)
    (hle : fuel ≤ more) : runWith options more args stdin disk = some out := by
  rcases run_stages options args stdin disk with ⟨stderr, hrun⟩ | ⟨o, limit, text, -, -, -, hrun⟩
  · rw [hrun] at h ⊢
    exact h
  · rw [hrun, Option.map_eq_some_iff] at h
    obtain ⟨result, ha, rfl⟩ := h
    rw [hrun, Options.action_of_le ha hle, Option.map_some]

/-! ## Effects -/

theorem isLines_listingText (l : Asm.Listing) : IsLines l.lines (listingText l) := by
  simp [IsLines, listingText, String.toList_join, List.flatMap_map]

theorem isLines_valueLine (v : Option Int64) : IsLines [valueText v] (valueLine v) := by
  cases v <;> simp [IsLines, valueText, valueLine]

theorem newline_not_mem_valueText (v : Option Int64) : '\n' ∉ (valueText v).toList := by
  cases v with
  | none => decide
  | some v => exact Text.not_mem_signed rfl (by decide) _

theorem Outcome.perform_of_write? {disk' : Disk} {path text : String}
    (h : disk.write? path text.toUTF8 = some disk') :
    perform disk (.save path text) = ⟨0, "", some "", disk'⟩ := by
  simp only [perform, h]

theorem Outcome.perform_of_refused {path text : String}
    (h : disk.write? path text.toUTF8 = none) :
    perform disk (.save path text) = failed disk (cannotCreate path) := by
  simp only [perform, h]

theorem Outcome.perform_of_exit_ne {a : Action} (h : (perform disk a).exit ≠ 0) :
    (perform disk a).stdout = "" ∧ (perform disk a).disk = disk := by
  cases a with
  | print text => exact absurd rfl h
  | save path text =>
    cases hw : disk.write? path text.toUTF8 with
    | none =>
      rw [perform_of_refused hw]
      exact ⟨rfl, rfl⟩
    | some disk' =>
      rw [perform_of_write? hw] at h
      exact absurd rfl h

theorem Options.destination_eq_some_iff {path : String} :
    o.destination = some path ↔ o.SendsTo path := by
  unfold destination SendsTo
  cases o.output <;> simp

theorem Options.destination_eq_none_iff :
    o.destination = none ↔ o.output = none ∧ o.input = none := by
  unfold destination
  cases o.output <;> simp

theorem Options.deliver_of_sendsTo {path : String} (h : o.SendsTo path) (l : Asm.Listing) :
    o.deliver l = .save path (listingText l) := by
  simp only [deliver, destination_eq_some_iff.mpr h]

theorem Options.deliver_of_none (hout : o.output = none) (hin : o.input = none)
    (l : Asm.Listing) : o.deliver l = .print (listingText l) := by
  simp only [deliver, destination_eq_none_iff.mpr ⟨hout, hin⟩]

theorem effect_of_action (hp : Reading.parse text = .ok p) {a : Action}
    (ha : o.action fuel limit text = some (.ok a)) (hexit : (Outcome.perform disk a).exit = 0) :
    Effect fuel o limit p disk (.perform disk a) := by
  obtain ⟨q, hq, hcases⟩ := Options.action_cases ha
  obtain rfl : p = q := Except.ok.inj (hp.symm.trans hq)
  rcases hcases with ⟨he, v, hv, rfl⟩ | ⟨he, l, hl, rfl⟩
  · exact .value v he hv (isLines_valueLine v) (newline_not_mem_valueText v) rfl
  · cases hd : o.destination with
    | none =>
      obtain ⟨hout, hin⟩ := Options.destination_eq_none_iff.mp hd
      rw [Options.deliver_of_none hout hin]
      exact .print l he hl hout hin (isLines_listingText l) rfl
    | some path =>
      have hsends := Options.destination_eq_some_iff.mp hd
      rw [Options.deliver_of_sendsTo hsends] at hexit ⊢
      cases hw : disk.write? path (listingText l).toUTF8 with
      | none =>
        rw [Outcome.perform_of_refused hw] at hexit
        cases hexit
      | some disk' =>
        rw [Outcome.perform_of_write? hw]
        obtain ⟨place, hplace, hdir, hsaved⟩ := Disk.saved_of_write? hw
        exact .file l _ path place he hl (isLines_listingText l) hsends hplace hdir hsaved rfl

/-- Where the effect is possible, the command succeeds. -/
theorem Accepts.exit_of_effect (h : Accepts options args stdin disk o limit text p)
    (heffect : Effect fuel o limit p disk out) :
    ∃ out', runWith options fuel args stdin disk = some out' ∧ out'.exit = 0 := by
  cases heffect with
  | value v he hv => exact ⟨_, h.run_eq (Options.action_of_value h.program he hv), rfl⟩
  | print l he hl hout hin =>
    refine ⟨_, h.run_eq (Options.action_of_listing h.program he hl), ?_⟩
    rw [Options.deliver_of_none hout hin]
    rfl
  | file l text path place he hl _ hsends hplace hdir =>
    refine ⟨_, h.run_eq (Options.action_of_listing h.program he hl), ?_⟩
    have hw := Disk.write?_eq_some hplace hdir (listingText l).toUTF8
    rw [Options.deliver_of_sendsTo hsends, Outcome.perform_of_write? hw]

theorem unchanged_of_exit_ne (h : runWith options fuel args stdin disk = some out)
    (hexit : out.exit ≠ 0) :
    out.stdout = "" ∧ out.disk = disk := by
  rcases run_cases h with ⟨stderr, rfl⟩ | ⟨o, limit, text, p, a, -, -, rfl⟩
  · exact ⟨rfl, rfl⟩
  · exact Outcome.perform_of_exit_ne hexit

theorem exists_effect (h : runWith options fuel args stdin disk = some out) (hexit : out.exit = 0) :
    ∃ o limit text p,
      Accepts options args stdin disk o limit text p ∧ Effect fuel o limit p disk out := by
  rcases run_cases h with ⟨stderr, rfl⟩ | ⟨o, limit, text, p, a, hacc, ha, rfl⟩
  · cases hexit
  · exact ⟨o, limit, text, p, hacc, effect_of_action hacc.program ha hexit⟩

/-- A command that fails leaves standard output empty and all files as they were. It succeeds if
there is an effect that it can have, and then it has this one; more time does not change that. -/
theorem run_effect (h : runWith options fuel args stdin disk = some out) :
    (out.exit ≠ 0 → out.stdout = "" ∧ out.disk = disk) ∧
    (out.exit = 0 ↔ ∃ o limit text p, Accepts options args stdin disk o limit text p ∧
      Effect fuel o limit p disk out) ∧
    ∀ more, fuel ≤ more → runWith options more args stdin disk = some out := by
  refine ⟨unchanged_of_exit_ne h, ⟨exists_effect h, ?_⟩, fun more => run_of_more_fuel h⟩
  rintro ⟨o, limit, text, p, hacc, heffect⟩
  obtain ⟨out', hrun, hexit⟩ := hacc.exit_of_effect heffect
  rw [h] at hrun
  cases hrun
  exact hexit

/-- A program that gives one variable a value. -/
def oneAssignment : Program := [.assign "x" (.atom (.literal 1))]

def oneAssignmentListing : Asm.Listing :=
  [.text, .global "_main", .global "main", .label (.symbol "_main"), .label (.symbol "main"),
    .instr (.push .rbp), .instr (.mov (.reg .rsp) (.reg .rbp)), .instr (.sub (.imm 16) .rsp),
    .instr (.mov (.imm 1) (.reg .rax)), .instr (.mov (.reg .rax) (.mem .rbp (-8))),
    .instr (.mov (.reg .rax) (.reg .rdi)), .instr (.call "print"),
    .instr (.mov (.reg .rbp) (.reg .rsp)), .instr (.pop .rbp), .instr .ret]

/-- The outcome of a command that puts this listing at a path. -/
theorem run_oneAssignment {path : String}
    (h : Accepts options args stdin disk o 8 text oneAssignment) (he : o.eval = false)
    (hsends : o.SendsTo path) :
    runWith options fuel args stdin disk =
      some (.perform disk (.save path (listingText oneAssignmentListing))) := by
  have hl : Lower.generate 8 oneAssignment = .ok oneAssignmentListing := rfl
  rw [h.run_eq (Options.action_of_listing h.program he hl), Options.deliver_of_sendsTo hsends]

/-- Where this listing goes to the place of the program, it overwrites the program. -/
theorem overwrites_oneAssignment {path : String} {place : Place}
    (h : Accepts options args stdin disk o 8 "x AWOO 1" oneAssignment) (he : o.eval = false)
    (hsends : o.SendsTo path) (hplace : disk.locate path = some place)
    (hdir : disk.isDir place = false) (hfile : disk.file? place = some "x AWOO 1".toUTF8) :
    ∃ out, runWith options fuel args stdin disk = some out ∧
      out.disk.file? place ≠ disk.file? place := by
  refine ⟨_, run_oneAssignment h he hsends, ?_⟩
  rw [Outcome.perform_of_write? (Disk.write?_eq_some hplace hdir _),
    (disk.saved_put place _).here, hfile]
  intro heq
  have hsame : (listingText oneAssignmentListing).toUTF8 = "x AWOO 1".toUTF8 := Option.some.inj heq
  rw [String.toUTF8_eq_toByteArray, String.toUTF8_eq_toByteArray, String.toByteArray_inj] at hsame
  exact absurd hsame (by decide)

/-- A disk with these files, `/work/d` as the working directory, and these links. -/
def workDisk (files : List (Place × ByteArray)) (links : List (Place × Link)) : Disk :=
  ⟨⟨files, [["work", "d"]]⟩, links, ["work", "d"], id, 40⟩

/-- A program in the directory above, and beside it a listing of something else. -/
def staleListing : Disk :=
  workDisk [(["work", "p.dog"], "x AWOO 1".toUTF8), (["work", "p.s"], "stale".toUTF8)] []

/-- The same with the listing of the program. -/
def freshListing : Disk :=
  workDisk [(["work", "p.dog"], "x AWOO 1".toUTF8),
    (["work", "p.s"], (listingText oneAssignmentListing).toUTF8)] []

theorem run_staleListing :
    run 0 ["../p.dog"] .empty staleListing = some ⟨0, "", some "", freshListing⟩ := by
  have hacc : Accepts Options.ofArgs ["../p.dog"] .empty staleListing
      ⟨some "../p.dog", none, false, none⟩ 8 "x AWOO 1" oneAssignment :=
    ⟨rfl, rfl, ⟨_, rfl, rfl⟩, rfl⟩
  have hsends : Options.SendsTo ⟨some "../p.dog", none, false, none⟩ "../p.s" := .inr ⟨rfl, rfl⟩
  have hw : staleListing.write? "../p.s" (listingText oneAssignmentListing).toUTF8 =
      some freshListing := rfl
  rw [run, run_oneAssignment hacc rfl hsends, Outcome.perform_of_write? hw]

/-- The name of the output is that of a directory. -/
theorem run_staleListing_refused :
    run 0 ["-o", "/work/d", "/work/p.dog"] .empty staleListing =
      some (.failed staleListing (cannotCreate "/work/d")) := by
  have hacc : Accepts Options.ofArgs ["-o", "/work/d", "/work/p.dog"] .empty staleListing
      ⟨some "/work/p.dog", some "/work/d", false, none⟩ 8 "x AWOO 1" oneAssignment :=
    ⟨rfl, rfl, ⟨_, rfl, rfl⟩, rfl⟩
  have hw : staleListing.write? "/work/d" (listingText oneAssignmentListing).toUTF8 = none := rfl
  rw [run, run_oneAssignment hacc rfl (.inl rfl), Outcome.perform_of_refused hw]

theorem run_effect_staleListing :
    run 0 ["../p.dog"] .empty staleListing = some ⟨0, "", some "", freshListing⟩ ∧
    (∃ o limit text p, Accepts Options.ofArgs ["../p.dog"] .empty staleListing o limit text p ∧
      Effect 0 o limit p staleListing ⟨0, "", some "", freshListing⟩) ∧
    run 0 ["-o", "/work/d", "/work/p.dog"] .empty staleListing =
      some (.failed staleListing (cannotCreate "/work/d")) ∧
    (Outcome.failed staleListing (cannotCreate "/work/d")).stdout = "" ∧
    (Outcome.failed staleListing (cannotCreate "/work/d")).disk = staleListing := by
  obtain ⟨-, hdone, -⟩ := run_effect run_staleListing
  obtain ⟨hfailed, -, -⟩ := run_effect run_staleListing_refused
  exact ⟨run_staleListing, hdone.mp rfl, run_staleListing_refused, hfailed Nat.one_ne_zero⟩

/-! ## The file that is read -/

/-- Without a path for its output, a command that reads a file and changes anything has put a
listing beside this file. -/
theorem disk_cases {path : String} (h : runWith options fuel args stdin disk = some out)
    (ho : options args = some o) (hout : o.output = none) (hin : o.input = some path) :
    (¬ (out.exit = 0 ∧ o.eval = false) ∧ out.disk = disk) ∨
    (out.exit = 0 ∧ o.eval = false) ∧ ∃ limit text p l listing place,
      Accepts options args stdin disk o limit text p ∧ Lower.generate limit p = .ok l ∧
      IsLines l.lines listing ∧ disk.locate (Path.listing path) = some place ∧
      disk.Saved out.disk place listing.toUTF8 := by
  by_cases hexit : out.exit = 0
  · obtain ⟨o', limit, text, p, hacc, heffect⟩ := exists_effect h hexit
    obtain rfl : o = o' := Option.some.inj (ho.symm.trans hacc.arguments)
    cases heffect with
    | value v he _ _ _ hdisk => exact .inl ⟨fun hc => by simp [he] at hc, hdisk⟩
    | print l _ _ _ hnone =>
      rw [hin] at hnone
      cases hnone
    | file l listing dest place he hl hlines hsends hplace _ hsaved =>
      obtain rfl : Path.listing path = dest := by simpa [Options.SendsTo, hout, hin] using hsends
      exact .inr ⟨⟨hexit, he⟩, limit, text, p, l, listing, place, hacc, hl, hlines, hplace, hsaved⟩
  · exact .inl ⟨fun hc => hexit hc.1, (unchanged_of_exit_ne h hexit).2⟩

/-- A path that leads nowhere is no input. -/
theorem exit_of_locate_eq_none {path : String}
    (h : runWith options fuel args stdin disk = some out) (ho : options args = some o)
    (hin : o.input = some path) (hnone : disk.locate path = none) : out.exit ≠ 0 := by
  intro hexit
  obtain ⟨o', limit, text, p, hacc, -⟩ := exists_effect h hexit
  obtain rfl : o = o' := Option.some.inj (ho.symm.trans hacc.arguments)
  obtain ⟨bytes, hbytes, -⟩ := hacc.source
  simp only [Options.bytes, hin, Disk.read?, hnone] at hbytes
  cases hbytes

/-- Without a path for its output, a command leaves the file that it reads as it is, unless its
listing goes to the same file; then a listing that is made takes the place of the program. The
listing does go there if the file has the name of a listing, and on a plain disk only then. -/
theorem run_keeps_input {path : String} (h : runWith options fuel args stdin disk = some out)
    (ho : options args = some o) (hout : o.output = none) (hin : o.input = some path) :
    (disk.locate path = none → out.exit ≠ 0 ∧ out.disk = disk) ∧
    ∀ place, disk.locate path = some place →
      (disk.locate (Path.listing path) ≠ some place →
        out.disk.file? place = disk.file? place) ∧
      (disk.locate (Path.listing path) = some place →
        if out.exit = 0 ∧ o.eval = false then
          ∃ limit text p l listing, Accepts options args stdin disk o limit text p ∧
            Lower.generate limit p = .ok l ∧ IsLines l.lines listing ∧
            out.disk.file? place = some listing.toUTF8
        else out.disk.file? place = disk.file? place) ∧
      (Path.IsListing path → disk.locate (Path.listing path) = some place) ∧
      (disk.Plain → disk.locate (Path.listing path) = some place → Path.IsListing path) := by
  refine ⟨fun hnone => ?_, fun place hplace => ?_⟩
  · have hexit := exit_of_locate_eq_none h ho hin hnone
    exact ⟨hexit, (unchanged_of_exit_ne h hexit).2⟩
  · refine and_assoc.mp ⟨?_, fun hname => ?_, fun hplain => hplain.isListing hplace⟩
    · rcases disk_cases h ho hout hin with ⟨hnot, hdisk⟩ |
        ⟨hdone, limit, text, p, l, listing, place', hacc, hl, hlines, hplace', hsaved⟩
      · rw [if_neg hnot, hdisk]
        exact ⟨fun _ => rfl, fun _ => rfl⟩
      · rw [if_pos hdone]
        refine ⟨fun hne => hsaved.elsewhere place ?_, fun hsame => ?_⟩
        · rintro rfl
          exact hne hplace'
        · obtain rfl : place = place' := Option.some.inj (hsame.symm.trans hplace')
          exact ⟨limit, text, p, l, listing, hacc, hl, hlines, hsaved.here⟩
    · rw [hname.listing_eq, hplace]

theorem run_keeps_input_staleListing :
    run 0 ["../p.dog"] .empty staleListing = some ⟨0, "", some "", freshListing⟩ ∧
    staleListing.locate "../p.dog" = some ["work", "p.dog"] ∧ staleListing.Plain ∧
    ¬ Path.IsListing "../p.dog" ∧
    freshListing.file? ["work", "p.dog"] = staleListing.file? ["work", "p.dog"] := by
  have hplace : staleListing.locate "../p.dog" = some ["work", "p.dog"] := rfl
  have hother : staleListing.locate (Path.listing "../p.dog") ≠ some ["work", "p.dog"] := by decide
  obtain ⟨-, hinput⟩ := run_keeps_input run_staleListing rfl rfl rfl
  obtain ⟨hkept, -, hlisting, -⟩ := hinput _ hplace
  exact ⟨run_staleListing, hplace, ⟨rfl, fun _ _ h => h⟩, fun hname => hother (hlisting hname),
    hkept hother⟩

/-- A program in a file with the name of a listing. -/
def listingNamed : Disk := workDisk [(["work", "d", "a.s"], "x AWOO 1".toUTF8)] []

/-- A program, and its listing's name linked to it. -/
def listingLinked : Disk :=
  workDisk [(["work", "d", "a.dog"], "x AWOO 1".toUTF8)]
    [(["work", "d", "a.s"], .symbolic "a.dog")]

theorem listingNamed_overwritten :
    (listingNamed.locate "a.s" = some ["work", "d", "a.s"] ∧
      ∃ out, run 0 ["a.s"] .empty listingNamed = some out ∧
        out.disk.file? ["work", "d", "a.s"] ≠ listingNamed.file? ["work", "d", "a.s"]) ∧
    listingLinked.locate "a.dog" = some ["work", "d", "a.dog"] ∧
      ∃ out, run 0 ["a.dog"] .empty listingLinked = some out ∧
        out.disk.file? ["work", "d", "a.dog"] ≠ listingLinked.file? ["work", "d", "a.dog"] := by
  have hnamed : Accepts Options.ofArgs ["a.s"] .empty listingNamed
      ⟨some "a.s", none, false, none⟩ 8 "x AWOO 1" oneAssignment := ⟨rfl, rfl, ⟨_, rfl, rfl⟩, rfl⟩
  have hlinked : Accepts Options.ofArgs ["a.dog"] .empty listingLinked
      ⟨some "a.dog", none, false, none⟩ 8 "x AWOO 1" oneAssignment :=
    ⟨rfl, rfl, ⟨_, rfl, rfl⟩, rfl⟩
  exact ⟨⟨rfl, overwrites_oneAssignment hnamed rfl (.inr ⟨rfl, rfl⟩) rfl rfl rfl⟩,
    rfl, overwrites_oneAssignment hlinked rfl (.inr ⟨rfl, rfl⟩) rfl rfl rfl⟩

end

end Kennel.Cli
