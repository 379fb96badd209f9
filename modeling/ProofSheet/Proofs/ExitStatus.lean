import ProofSheet.CommandLine.Run
import ProofSheet.Proofs.Findings

set_option autoImplicit false

/-! # What a check exits with

No text makes the program report a fault of its own: a load reports structural faults only, one at
most and as its last message, and then the worksheet is broken (`Worksheet.sound_load`). So to check
files gives 0 if all of them can be read and load cleanly, and 1 otherwise
(`check_exit_iff`).
-/

namespace ProofSheet

/-! ## Structural codes -/

/-- The code is one from `E-PA-0100` to `E-PA-0599`. -/
def isStructuralCode (code : String) : Bool :=
  match code.toList with
  | ['E', '-', 'P', 'A', '-', '0', k, x, y] =>
    ['1', '2', '3', '4', '5'].contains k && x.isDigit && y.isDigit
  | _ => false

/-- The message reports a structural fault. -/
def Message.isStructural (m : Message) : Bool := isStructuralCode m.code

/-- Every cause but a broken promise of the program has a structural code. -/
theorem Cause.code_structural {c : Cause} (h : ∀ detail, c ≠ .internal detail) :
    isStructuralCode c.code = true ∧ Severity.ofCode c.code = .error := by
  cases c with
  | internal detail => exact absurd rfl (h detail)
  | _ =>
      dsimp only [Cause.code]
      decide +kernel

theorem Note.code_harmless (n : Note) :
    isStructuralCode n.code = false ∧ Severity.ofCode n.code ≠ .abort := by
  cases n with
  | _ =>
      dsimp only [Note.code]
      decide +kernel

/-! ## Remarks and faults -/

theorem Message.IsRemark.harmless {ts : List Token} {m : Message} (h : m.IsRemark ts) :
    m.isStructural = false ∧ m.severity ≠ .abort := by
  cases h with
  | note h =>
      obtain ⟨n, label, t, -, rfl⟩ := h
      exact n.code_harmless
  | mismatch label step target span =>
      unfold Message.isStructural Message.severity
      dsimp only [formulaMismatch]
      decide +kernel

theorem Fault.IsFound.structural {ts : List Token} {f : Fault} (h : f.IsFound ts) :
    f.toMessage.isStructural = true ∧ f.toMessage.severity ≠ .abort := by
  have not_internal : ∀ detail, f.cause ≠ .internal detail := by
    intro detail heq
    cases h with
    | read h => exact absurd h.cause (by rw [heq]; exact Bool.false_ne_true)
    | search cause => cases cause.symm.trans heq
    | unresolved cause => exact absurd cause (by rw [heq]; exact Bool.false_ne_true)
    | count cause => cases cause.symm.trans heq
  obtain ⟨hstructural, hseverity⟩ := Cause.code_structural not_internal
  refine ⟨hstructural, ?_⟩
  show Severity.ofCode f.cause.code ≠ .abort
  rw [hseverity]
  decide

namespace Worksheet

/-- The messages of a worksheet go with its state: none reports a fault of the program itself, one at
most reports a structural fault, and the worksheet is broken exactly if the last one does. -/
structure Sound (ws : Worksheet) : Prop where
  noAbort : Message.hasAbort ws.messages = false
  broken : ws.broken = true ↔ ∃ m, ws.messages.getLast? = some m ∧ m.isStructural = true
  atMostOne : ws.messages.countP Message.isStructural ≤ 1

/-- A load keeps the messages sound, whatever the text. -/
theorem sound_load (db : Database) (st : Settings) (request : Request) (text : Text) :
    (load db st request text).Sound := by
  obtain ⟨remarks, hremarks, hload⟩ := load_reports db st request text
  have harmless : ∀ m ∈ remarks, m.isStructural = false ∧ m.severity ≠ .abort :=
    fun m hm => (hremarks m hm).harmless
  have none_aborts : Message.hasAbort remarks = false := by
    rw [Message.hasAbort, List.any_eq_false]
    intro m hm
    simpa using (harmless m hm).2
  have none_structural : remarks.countP Message.isStructural = 0 := by
    rw [List.countP_eq_zero]
    intro m hm
    simp [(harmless m hm).1]
  rcases hload with ⟨hbroken, hmessages⟩ | ⟨hbroken, f, hfound, hmessages⟩
  · refine ⟨by rw [hmessages, none_aborts], ?_, by rw [hmessages, none_structural]; omega⟩
    rw [hbroken, hmessages]
    refine iff_of_false Bool.false_ne_true ?_
    rintro ⟨m, hlast, hstructural⟩
    rw [(harmless m (List.mem_of_getLast? hlast)).1] at hstructural
    cases hstructural
  · obtain ⟨hstructural, hseverity⟩ := hfound.structural
    refine ⟨?_, ?_, ?_⟩
    · rw [hmessages, Message.hasAbort, List.any_append]
      rw [Message.hasAbort] at none_aborts
      simpa [none_aborts] using hseverity
    · rw [hbroken, hmessages, List.getLast?_concat]
      exact iff_of_true rfl ⟨_, rfl, hstructural⟩
    · rw [hmessages, List.countP_append, none_structural, List.countP_singleton, if_pos hstructural]

/-- A sound worksheet stands for 0 or 1. -/
theorem Sound.exitStatus {ws : Worksheet} (h : ws.Sound) :
    ws.exitStatus = if ws.broken then 1 else 0 := by
  rw [Worksheet.exitStatus, h.noAbort]
  rfl

end Worksheet

/-! ## Checking files -/

theorem foldl_max_le_iff (l : List Nat) (a b : Nat) :
    l.foldl max a ≤ b ↔ a ≤ b ∧ ∀ x ∈ l, x ≤ b := by
  induction l generalizing a with
  | nil => simp
  | cons x l ih =>
      rw [List.foldl_cons, ih, Nat.max_le, List.forall_mem_cons, and_assoc]

section Check

variable {load : Text → Worksheet}

/-- The file can be read and holds a worksheet that loads cleanly. -/
def LoadsCleanly (files : Files) (load : Text → Worksheet) (path : Text) : Prop :=
  ∃ text, files path = .ok text ∧ (load text).broken = false

theorem checkFile_exit (files : Files) (sound : ∀ text, (load text).Sound) (path : Text) :
    (checkFile files load path).exit ≤ 1 ∧
      ((checkFile files load path).exit ≤ 0 ↔ LoadsCleanly files load path) := by
  unfold checkFile LoadsCleanly
  cases hfile : files path with
  | error e => simp
  | ok text =>
      simp only [(sound text).exitStatus]
      cases hbroken : (load text).broken with
      | true => simp [hbroken]
      | false => simp [hbroken]

/-- The worst file decides what a check exits with. -/
theorem checkFiles_exit (files : Files) (sound : ∀ text, (load text).Sound) (paths : List Text) :
    (checkFiles files load paths).exit ≤ 1 ∧
      ((checkFiles files load paths).exit ≤ 0 ↔ ∀ path ∈ paths, LoadsCleanly files load path) := by
  unfold checkFiles
  dsimp only
  rw [foldl_max_le_iff, foldl_max_le_iff]
  simp only [List.map_map, List.forall_mem_map, Function.comp_apply]
  refine ⟨⟨Nat.zero_le 1, fun path _ => (checkFile_exit files sound path).1⟩, ?_⟩
  rw [and_iff_right (Nat.le_refl 0)]
  exact forall₂_congr fun path _ => (checkFile_exit files sound path).2

end Check

/-- Paths are read as they are. -/
theorem mapM_readPath {paths : List Text} (h : ∀ path ∈ paths, path ≠ []) :
    paths.mapM readPath = some paths := by
  induction paths with
  | nil => rfl
  | cons path rest ih =>
      obtain ⟨hpath, hrest⟩ := List.forall_mem_cons.mp h
      have hread : readPath path = some path := if_neg (by simpa using hpath)
      rw [List.mapM_cons, hread, ih hrest]
      rfl

/-- There is a command line that checks any files. -/
theorem ofArguments?_check {paths : List Text} (hne : paths ≠ []) (h : ∀ path ∈ paths, path ≠ []) :
    Invocation.ofArguments? ("check".toList :: "--".toList :: paths) =
      some ⟨{}, .check paths⟩ := by
  have hleading : Side.ofLeading? Options.names ("check".toList :: "--".toList :: paths) =
      some { words := "check".toList :: "--".toList :: paths } := rfl
  have hside : Side.ofArguments? (Command.optionNames "check".toList) ("--".toList :: paths) =
      some { words := paths } := by
    rw [Side.ofArguments?]
    rfl
  have hcommand : Command.ofSide? "check".toList { words := paths } = some (.check paths) := by
    rw [Command.ofSide?, if_pos rfl, mapM_readPath h]
    exact if_neg (by simpa using hne)
  simp only [Invocation.ofArguments?, hleading, Option.bind_eq_bind, Option.bind_some, hside,
    hcommand]
  rfl

/-- Whatever is loaded, the messages are sound. So a command line that asks for a check, with settings
and theorems that are valid if they are given, exits with 0 if every file can be read and loads
cleanly, and with 1 otherwise. -/
theorem check_exit_iff :
    (∀ (db : Database) (st : Settings) (request : Request) (text : Text),
        (Worksheet.load db st request text).Sound) ∧
      ∀ {arguments : List Text} {options : Options} {paths : List Text} {files : Files}
        {st : Settings} {table : TheoremTable},
        Invocation.ofArguments? arguments = some ⟨options, .check paths⟩ →
        options.readSettings files = .ok st → options.readTheorems files = .ok table →
        let load := Worksheet.load table.database st { caret := options.caret }
        let result := runArguments arguments files
        (result.exit = 0 ↔ ∀ path ∈ paths, LoadsCleanly files load path) ∧
          (result.exit = 0 ∨ result.exit = 1) := by
  refine ⟨Worksheet.sound_load, ?_⟩
  intro arguments options paths files st table harguments hsettings htheorems load result
  have hresult : result = checkFiles files load paths := by
    simp only [result, runArguments, harguments, Invocation.run, hsettings, htheorems,
      Invocation.runWith, load]
  obtain ⟨hle, hzero⟩ := checkFiles_exit files
    (Worksheet.sound_load table.database st { caret := options.caret }) paths
  rw [hresult, ← hzero, Nat.le_zero]
  exact ⟨Iff.rfl, Nat.le_one_iff_eq_zero_or_eq_one.mp hle⟩

/-- Of all files there is only the one with the path `sheet`. -/
def sheetFiles : Files := fun path =>
  if path = "sheet".toList then .ok shortText else .error .missing

theorem check_exit_sheetFiles :
    (Worksheet.load .empty {} {} shortText).Sound ∧
      (runArguments ["check".toList, "--".toList, "sheet".toList] sheetFiles).exit = 0 ∧
      (runArguments ["check".toList, "--".toList, "sheet".toList, "other".toList]
        sheetFiles).exit = 1 := by
  obtain ⟨sound, exits⟩ := check_exit_iff
  refine ⟨sound _ _ _ _, ?_, ?_⟩
  · refine (exits (ofArguments?_check (by decide) (by decide)) rfl rfl).1.mpr fun path hpath => ?_
    rw [List.mem_singleton.mp hpath]
    exact ⟨shortText, rfl, by decide +kernel⟩
  · have paths : ["sheet".toList, "other".toList] ≠ [] ∧
        ∀ path ∈ ["sheet".toList, "other".toList], path ≠ [] := by decide
    have settings : Options.readSettings sheetFiles {} = .ok {} := rfl
    have result := exits (ofArguments?_check paths.1 paths.2) settings rfl
    -- the second file cannot be read
    refine result.2.resolve_left fun hzero => ?_
    obtain ⟨text, hfile, -⟩ := result.1.mp hzero "other".toList (by decide)
    cases hfile

end ProofSheet
