import ArithScript.Proofs.Annotation
import ArithScript.Proofs.CommandOutput
import ArithScript.Proofs.FileTree
import ArithScript.Proofs.OptionValues
import Mathlib.Data.List.Forall2

/-!
# Runs of the command

A script can be had from the library, as a snapshot and with the command. The command reads a
document and generates from it in two steps, and reports a refusal of either under a heading of its
own; the library and the snapshot go through `generateText`. On the same text all three agree
(`Agrees`): they succeed together, with the same code and the same mappings, and the first cause
that the command reports is the error of the snapshot, with its further lines indented.

A run is all or nothing as far as its devices are. It leaves the files as they are, or it has
succeeded and written the output, or the device of the output broke off; then the output file, and
no other, holds a beginning of what was to be delivered.
-/

set_option autoImplicit false

namespace ArithScript

/-- A mapping of a snapshot shows a mapping, field by field. -/
structure FlatMapping.Shows (f : FlatMapping) (m : Mapping) : Prop where
  generatedLine : f.generatedLine = m.generated.line
  generatedColumn : f.generatedColumn = m.generated.character
  originLine : f.originLine = m.origin.line
  originColumn : f.originColumn = m.origin.character
  name : f.name = m.name

theorem Mapping.shows_flatten (m : Mapping) : m.flatten.Shows m := ⟨rfl, rfl, rfl, rfl, rfl⟩

/-- What a snapshot has to show: its script, or the lines of its mappings. -/
def Snapshot.shown (snapshot : Snapshot) (lines : Bool) : String :=
  if lines then "\n".intercalate (snapshot.mappings.map FlatMapping.line)
  else snapshot.code.getD ""

namespace Command

theorem decodeText_utf8Bytes (text : String) : decodeText (utf8Bytes text) = .ok text := by
  have hbytes : (utf8Bytes text).toByteArray = ⟨(utf8Bytes text).toArray⟩ :=
    ByteArray.ext List.data_toByteArray
  rw [decodeText, ← hbytes, fromUTF8?_utf8Bytes]

/-- A path can be written with a file of some size. -/
def Files.CanWrite (files : Files) (medium : Medium) (path : String) (size : Nat) : Prop :=
  ∃ place, files.Takes medium path place ∧ HasRoom medium place size

/-! ## What a run produces and delivers

A run produces a text or a report, from the text of its file and nothing else. Then it delivers the
text, to standard output or to a file, and there are four ends to that: no file was asked for, the
file was written, it could not be opened, or its device broke off. -/

/-- A step of a run that has been done is followed by the rest. -/
theorem run_bind {α β : Type} {x : StateM World α} {a : α} {world world' : World}
    (h : x.run world = (a, world')) (f : α → StateM World β) :
    (x >>= f).run world = (f a).run world' := by
  rw [StateT.run_bind, h]
  rfl

theorem Surroundings.run_write (s : Surroundings) {world : World} {path : String}
    {bytes : List UInt8} {result : Except FileError Unit} {files : Files}
    (h : world.files.write s.medium path bytes = (result, files)) :
    (s.system.write path bytes).run world = (result, { world with files := files }) := by
  show ((world.files.write s.medium path bytes).1, _) = _
  rw [h]

namespace Invocation

/-- The heading under which a run reports that there is no script. -/
def heading (i : Invocation) (text : String) : String :=
  if (Document.parse text i.options.maxDepth).isOk then "Generation failed"
  else "Invalid document '" ++ i.file ++ "'"

/-- **Reading and generating in two steps** comes to the same as in one, except for the heading of a
report. -/
theorem produce_cases (i : Invocation) (text : String) :
    (∃ generated, generateText i.sourceUri text i.options = .ok generated
        ∧ i.produce (.ok text)
          = .ok ((Snapshot.ofText i.sourceUri text i.options).shown i.mappings))
      ∨ ∃ refusal, generateText i.sourceUri text i.options = .error refusal
        ∧ i.produce (.ok text) = .error ⟨i.heading text, refusalCauses refusal⟩ := by
  -- the same two steps that can refuse stand in the library call and in the command
  cases hparse : Document.parse text i.options.maxDepth with
  | error refusal =>
    have hlibrary : generateText i.sourceUri text i.options = .error refusal := by
      rw [generateText, hparse]
      rfl
    refine .inr ⟨refusal, hlibrary, ?_⟩
    simp only [produce, heading, hparse]
    rfl
  | ok document =>
    have hlibrary : generateText i.sourceUri text i.options
        = (document.generate i.sourceUri i.options).mapError .nestingTooDeep := by
      rw [generateText, hparse]
      rfl
    cases hgenerate : document.generate i.sourceUri i.options with
    | error failure =>
      rw [hgenerate] at hlibrary
      refine .inr ⟨.nestingTooDeep failure, hlibrary, ?_⟩
      simp only [produce, heading, hparse, hgenerate]
      rfl
    | ok generated =>
      rw [hgenerate] at hlibrary
      refine .inl ⟨generated, hlibrary, ?_⟩
      have hlines : generated.mappings.map mappingLine
          = (generated.mappings.map Mapping.flatten).map FlatMapping.line := by
        rw [List.map_map]
        exact List.map_congr_left fun m _ => mappingLine_eq m
      have hsnapshot : Snapshot.ofText i.sourceUri text i.options
          = ⟨true, none, some generated.code, generated.mappings.map Mapping.flatten⟩ := by
        rw [Snapshot.ofText, hlibrary]
        rfl
      simp only [produce, hparse, hgenerate, hlines]
      rw [hsnapshot, Snapshot.shown]
      split <;> rfl

/-- **How handing over a text ends**: on standard output; in the file of the output path; with a
report, because the path is not taken; or with a report and a beginning of the text, because the
device breaks off. -/
theorem deliver_cases (i : Invocation) (s : Surroundings) (text : String) (world : World) :
    (i.output = none
        ∧ (i.deliver s.system text).run world
          = (0, { world with stdout := world.stdout ++ (text ++ "\n") }))
      ∨ (∃ path place, i.output = some path ∧ world.files.Takes s.medium path place
        ∧ Files.HasRoom s.medium place (utf8Bytes text).length
        ∧ (i.deliver s.system text).run world
          = (0, { world with files := world.files.put place (utf8Bytes text) }))
      ∨ (∃ path report, i.output = some path
        ∧ (∀ place, ¬ world.files.Takes s.medium path place)
        ∧ (i.deliver s.system text).run world
          = (1, { world with stderr := world.stderr ++ report }))
      ∨ ∃ path place room error report, i.output = some path
        ∧ world.files.Takes s.medium path place ∧ s.medium place = .breaksOff room error
        ∧ room < (utf8Bytes text).length
        ∧ (i.deliver s.system text).run world
          = (1, { world with
              stderr := world.stderr ++ report
              files := world.files.put place ((utf8Bytes text).take room) }) := by
  cases houtput : i.output with
  | none =>
    refine .inl ⟨rfl, ?_⟩
    rw [deliver, houtput]
    rfl
  | some path =>
    refine .inr ?_
    rw [deliver, houtput]
    dsimp only
    -- a write is refused, goes through, or stops on the way: one case each
    rcases world.files.write_cases s.medium path (utf8Bytes text) with
      ⟨hrefused, error, hwrite⟩ | ⟨place, htakes, hroom, hwrite⟩
        | ⟨place, room, error, htakes, hbreaks, hroom, hwrite⟩
    · refine .inr (.inl ⟨path, (writeReport path error).text, rfl, hrefused, ?_⟩)
      rw [run_bind (s.run_write hwrite)]
      rfl
    · refine .inl ⟨path, place, rfl, htakes, hroom, ?_⟩
      rw [run_bind (s.run_write hwrite)]
      rfl
    · refine .inr (.inr ⟨path, place, room, error, (writeReport path error).text, rfl, htakes,
        hbreaks, hroom, ?_⟩)
      rw [run_bind (s.run_write hwrite)]
      rfl

end Invocation

/-! ## What a run leaves behind

From the two steps follows what a whole run prints, with which code it exits and which files there
are after it. -/

section

variable {s : Surroundings} {arguments : List String} {files : Files} {i : Invocation}

/-- A run starts its log, and ends with what it has produced. -/
theorem run_perform (hparse : parseArguments arguments = .ok (.run i)) :
    (perform s.system arguments).run ⟨"", "", files⟩
      = (i.finish s.system (i.produce ((files.read i.file).bind decodeText))).run
        ⟨"", s.log i.verbose, files⟩ := by
  rw [perform, hparse, ← String.empty_append (s := s.log i.verbose)]
  rfl

/-- A run that has nothing to deliver fails, and leaves the files alone. -/
theorem runIn_of_error (hparse : parseArguments arguments = .ok (.run i)) {report : Report}
    (hproduce : i.produce ((files.read i.file).bind decodeText) = .error report) :
    runIn s arguments files = ⟨1, "", s.log i.verbose ++ report.text, files⟩ := by
  rw [runIn, run_perform hparse, hproduce]
  rfl

/-- A run that has a text to deliver does so behind its log. -/
theorem runIn_of_ok (hparse : parseArguments arguments = .ok (.run i)) {text : String}
    (hproduce : i.produce ((files.read i.file).bind decodeText) = .ok text) {exit : Nat}
    {world : World}
    (hdeliver : (i.deliver s.system text).run ⟨"", s.log i.verbose, files⟩ = (exit, world)) :
    runIn s arguments files = world.outcome exit := by
  rw [runIn, run_perform hparse, hproduce, Invocation.finish, hdeliver]

end

/-- **The device of the output broke off**: the output file holds a beginning of what was to be
delivered, and nothing else has changed. -/
def BrokeOff (s : Surroundings) (arguments : List String) (files written : Files) : Prop :=
  ∃ i path place text room error, parseArguments arguments = .ok (.run i) ∧ i.output = some path
    ∧ i.produce ((files.read i.file).bind decodeText) = .ok text
    ∧ files.Takes s.medium path place ∧ s.medium place = .breaksOff room error
    ∧ room < (utf8Bytes text).length ∧ written = files.put place ((utf8Bytes text).take room)

/-- **What a run does to the files**: nothing; or it succeeds and puts a file where the output path
takes it; or it fails and the device has broken off. -/
theorem files_of_runIn (s : Surroundings) (arguments : List String) (files : Files) :
    (runIn s arguments files).files = files
      ∨ ((runIn s arguments files).exit = 0 ∧ ∃ i path place bytes,
          parseArguments arguments = .ok (.run i) ∧ i.output = some path
            ∧ files.Takes s.medium path place
            ∧ (runIn s arguments files).files = files.put place bytes)
      ∨ BrokeOff s arguments files (runIn s arguments files).files := by
  cases hparse : parseArguments arguments with
  | error error =>
    left
    rw [runIn, perform, hparse]
    rfl
  | ok request =>
    cases request with
    | help =>
      left
      rw [runIn, perform, hparse]
      rfl
    | run i =>
      cases hproduce : i.produce ((files.read i.file).bind decodeText) with
      | error report => exact .inl (by rw [runIn_of_error hparse hproduce])
      | ok text =>
        -- only a delivery to a path changes a file, whole or up to where the medium stopped
        rcases i.deliver_cases s text ⟨"", s.log i.verbose, files⟩ with
          ⟨-, hdeliver⟩ | ⟨path, place, houtput, htakes, -, hdeliver⟩
            | ⟨path, report, -, -, hdeliver⟩
            | ⟨path, place, room, error, report, houtput, htakes, hbreaks, hroom, hdeliver⟩
        · exact .inl (by rw [runIn_of_ok hparse hproduce hdeliver]; rfl)
        · rw [runIn_of_ok hparse hproduce hdeliver]
          exact .inr (.inl ⟨rfl, i, path, place, _, rfl, houtput, htakes, rfl⟩)
        · exact .inl (by rw [runIn_of_ok hparse hproduce hdeliver]; rfl)
        · rw [runIn_of_ok hparse hproduce hdeliver]
          exact .inr (.inr ⟨i, path, place, text, room, error, hparse, houtput, hproduce,
            htakes, hbreaks, hroom, rfl⟩)

/-- A text is handed over: on standard output with a newline, or as it is in the file of the output
path. -/
structure Outcome.HandsOver (o : Outcome) (output : Option String) (text : String) : Prop where
  toStdout : output = none → o.stdout = text ++ "\n"
  toFile : ∀ path, output = some path → o.stdout = "" ∧ o.files.read path = .ok (utf8Bytes text)

/-- **A text is handed over** exactly if the output path, where there is one, can be written with
it. -/
theorem handsOver_of_produce {s : Surroundings} {arguments : List String} {files : Files}
    {i : Invocation} (hparse : parseArguments arguments = .ok (.run i)) {text : String}
    (hproduce : i.produce ((files.read i.file).bind decodeText) = .ok text) :
    ((runIn s arguments files).exit = 0
        ↔ ∀ path, i.output = some path → files.CanWrite s.medium path (utf8Bytes text).length)
      ∧ ((runIn s arguments files).exit = 0 →
        (runIn s arguments files).stderr = s.log i.verbose
          ∧ (runIn s arguments files).HandsOver i.output text) := by
  rcases i.deliver_cases s text ⟨"", s.log i.verbose, files⟩ with
    ⟨houtput, hdeliver⟩ | ⟨path, place, houtput, htakes, hroom, hdeliver⟩
      | ⟨path, report, houtput, hrefused, hdeliver⟩
      | ⟨path, place, room, error, report, houtput, htakes, hbreaks, hroom, hdeliver⟩
  all_goals rw [runIn_of_ok hparse hproduce hdeliver, houtput]
  · refine ⟨⟨fun _ _ hpath => (by cases hpath), fun _ => rfl⟩, fun _ => ⟨rfl, ?_⟩⟩
    refine ⟨fun _ => ?_, fun _ hpath => (by cases hpath)⟩
    exact String.empty_append
  · refine ⟨⟨fun _ _ hpath => ?_, fun _ => rfl⟩, fun _ => ⟨rfl, ?_⟩⟩
    · cases hpath
      exact ⟨place, htakes, hroom⟩
    · refine ⟨fun hnone => (by cases hnone), ?_⟩
      rintro _ ⟨⟩
      exact ⟨rfl, Files.read_put_of_takes htakes _⟩
  · refine ⟨⟨fun hzero => (by cases hzero), fun hwrite => ?_⟩, fun hzero => (by cases hzero)⟩
    obtain ⟨place, htakes, -⟩ := hwrite path rfl
    exact absurd htakes (hrefused place)
  · refine ⟨⟨fun hzero => (by cases hzero), fun hwrite => ?_⟩, fun hzero => (by cases hzero)⟩
    obtain ⟨other, hother, hfits⟩ := hwrite path rfl
    -- the path leads to one place, and there is not enough room there
    obtain rfl : place = other := Except.ok.inj (htakes.reached.symm.trans hother.reached)
    exact absurd (hfits room error hbreaks) (Nat.not_le_of_lt hroom)

/-! ## Agreement

The command does not call the library as a whole, so its agreement with it has to be shown: that
parsing and generating in two steps comes to the same, that the report begins with the error of the
library, and that what is delivered is what the snapshot shows. -/

/-- **The command, the library and a snapshot agree** about a run whose file holds a text. -/
structure Agrees (s : Surroundings) (arguments : List String) (files : Files) (i : Invocation)
    (text : String) : Prop where
  /-- The source is called by the path of the file, with slashes, unless a name is given. -/
  uri : i.sourceUri = (valueGiven? "--uri" (optionPart arguments)).getD
    (i.file.map fun c => if c = '\\' then '/' else c)
  options : i.options = ⟨!isGiven arguments "--no-source-map",
    !isGiven arguments "--no-symbol-names", !isGiven arguments "--no-end-mappings",
    i.options.maxDepth⟩
  limit : ∀ given, valueGiven? "--max-depth" (optionPart arguments) = some given →
    IsLimit given i.options.maxDepth
  noLimit : valueGiven? "--max-depth" (optionPart arguments) = none → i.options.maxDepth = 256
  exit : (runIn s arguments files).exit = 0
    ↔ (∃ generated, generateText i.sourceUri text i.options = .ok generated)
      ∧ ∀ path, i.output = some path → files.CanWrite s.medium path
        (utf8Bytes ((Snapshot.ofText i.sourceUri text i.options).shown
          (isGiven arguments "--mappings"))).length
  success : (Snapshot.ofText i.sourceUri text i.options).success = true
    ↔ ∃ generated, generateText i.sourceUri text i.options = .ok generated
  delivered : ∀ generated, generateText i.sourceUri text i.options = .ok generated →
    (Snapshot.ofText i.sourceUri text i.options).code = some generated.code
      ∧ List.Forall₂ FlatMapping.Shows (Snapshot.ofText i.sourceUri text i.options).mappings
        generated.mappings
      ∧ ((runIn s arguments files).exit = 0 →
        (runIn s arguments files).stderr = s.log i.verbose
          ∧ (runIn s arguments files).HandsOver i.output
            ((Snapshot.ofText i.sourceUri text i.options).shown (isGiven arguments "--mappings")))
  /-- What is reported is known to the letter, behind the log. -/
  refused : (¬ ∃ generated, generateText i.sourceUri text i.options = .ok generated) →
    (runIn s arguments files).exit = 1 ∧ (runIn s arguments files).stdout = ""
      ∧ (runIn s arguments files).files = files
      ∧ ∃ report causes cause, (runIn s arguments files).stderr = s.log i.verbose ++ report
        ∧ Report.Prints (i.heading text) causes report.toList
        ∧ causes.head? = some cause
        ∧ (Snapshot.ofText i.sourceUri text i.options).error = some cause

theorem agrees_of_read {s : Surroundings} {arguments : List String} {files : Files}
    {i : Invocation} {text : String} (hparse : parseArguments arguments = .ok (.run i))
    (hread : files.read i.file = .ok (utf8Bytes text)) : Agrees s arguments files i text := by
  obtain ⟨hoptions, hmappings⟩ := flags_of_parseArguments hparse
  obtain ⟨huri, hlimit, hnoLimit⟩ := values_of_parseArguments hparse
  have hcontent : (files.read i.file).bind decodeText = .ok text := by
    rw [hread]
    exact decodeText_utf8Bytes text
  have hcalled : i.sourceUri = (valueGiven? "--uri" (optionPart arguments)).getD
      (i.file.map fun c => if c = '\\' then '/' else c) := by
    rw [← huri]
    rfl
  -- the library answers or refuses; each side fixes what the run and the snapshot can say
  rcases i.produce_cases text with ⟨generated, hlibrary, hproduce⟩ | ⟨refusal, hlibrary, hproduce⟩
  · have hsnapshot : Snapshot.ofText i.sourceUri text i.options
        = ⟨true, none, some generated.code, generated.mappings.map Mapping.flatten⟩ := by
      rw [Snapshot.ofText, hlibrary]
    have hsome : ∃ generated, generateText i.sourceUri text i.options = .ok generated :=
      ⟨generated, hlibrary⟩
    rw [← hcontent, hmappings] at hproduce
    obtain ⟨hexit, hover⟩ := handsOver_of_produce (s := s) hparse hproduce
    refine ⟨hcalled, hoptions, hlimit, hnoLimit, ?_, ?_, ?_, fun hnone => absurd hsome hnone⟩
    · exact hexit.trans (and_iff_right hsome).symm
    · rw [hsnapshot]
      exact iff_of_true rfl hsome
    · intro result hresult
      obtain rfl : generated = result := Except.ok.inj (hlibrary.symm.trans hresult)
      refine ⟨by rw [hsnapshot], ?_, hover⟩
      rw [hsnapshot, List.forall₂_map_left_iff, List.forall₂_same]
      exact fun m _ => m.shows_flatten
  · have hsnapshot : Snapshot.ofText i.sourceUri text i.options
        = ⟨false, some refusal.message, none, []⟩ := by
      rw [Snapshot.ofText, hlibrary]
    have hnone : ¬ ∃ generated, generateText i.sourceUri text i.options = .ok generated := by
      rintro ⟨generated, hok⟩
      rw [hlibrary] at hok
      cases hok
    rw [← hcontent] at hproduce
    have hrun := runIn_of_error (s := s) hparse hproduce
    refine ⟨hcalled, hoptions, hlimit, hnoLimit, ?_, ?_,
      fun result hresult => absurd ⟨result, hresult⟩ hnone, fun _ => ?_⟩
    · rw [hrun]
      exact iff_of_false Nat.one_ne_zero fun hboth => hnone hboth.1
    · rw [hsnapshot]
      exact iff_of_false Bool.false_ne_true hnone
    · rw [hrun, hsnapshot]
      exact ⟨rfl, rfl, rfl, _, _, refusal.message, rfl, prints_refusal _ refusal,
        head_refusalCauses refusal, rfl⟩

/-- The document `5`, with the region of its literal. -/
def literalText : String :=
  "[\"5\",[null,[[\"Evaluation\",[\"NumberLiteral\",5,[0,1]]]]]]"

/-- A tree with one file, in the working directory. -/
def loneFile (name text : String) : Files := ⟨[(⟨.above 0, [name]⟩, utf8Bytes text)], []⟩

/-- A name that is a path of one step from the working directory, and not too long. -/
def IsPlainName (name : String) : Prop :=
  pathSteps name = [name] ∧ pathStart name = .working ∧ name.endsWith "/" = false
    ∧ name ≠ "." ∧ name ≠ ".." ∧ isLong pathLimit name = false ∧ isLong nameLimit name = false

instance (name : String) : Decidable (IsPlainName name) := inferInstanceAs (Decidable (_ ∧ _))

theorem plain_names : IsPlainName "a\\b" ∧ IsPlainName "o" ∧ IsPlainName "doc.json" := by
  decide +kernel

theorem read_loneFile {name : String} (text : String) (hname : IsPlainName name) :
    (loneFile name text).read name = .ok (utf8Bytes text) := by
  obtain ⟨hsteps, hstart, hslash, hdot, hdots, hpath, hlong⟩ := hname
  have hfollow : (loneFile name text).followFrom name (pathSteps name)
      = .ok ⟨.above 0, [name]⟩ := by
    simp [loneFile, Files.followFrom, hsteps, hstart, hpath, hlong, hdot, hdots, Files.follow,
      Files.entryAt, Place.working, Place.step]
  exact Files.read_of_follow hslash hfollow (by simp [loneFile, Files.entryAt])

/-- A tree in which a file holds that text. -/
def literalFiles : Files := loneFile "a\\b" literalText

theorem read_literalFiles : literalFiles.read "a\\b" = .ok (utf8Bytes literalText) :=
  read_loneFile literalText plain_names.1

/-- Devices that have room for so many bytes, and a log if one is asked for. -/
def tight (room : Nat) : Surroundings where
  medium _ := .breaksOff room (.other "No space left on device (os error 28)")
  log details := if details then "DEBUG generated script\n" else ""

theorem takes_literalFiles (room : Nat) :
    literalFiles.Takes (tight room).medium "o" ⟨.above 0, ["o"]⟩ := by
  obtain ⟨-, ⟨hsteps, hstart, hslash, -, -, hpath, hlong⟩, -⟩ := plain_names
  refine ⟨?_, ?_, fun error h => by cases h⟩
  · simp [Files.writePlace, Files.followFrom, hsteps, hstart, hslash, hpath, hlong, Files.follow,
      Files.entryAt, literalFiles, loneFile, Place.working, Place.step]
  · simp [Files.entryAt, literalFiles, loneFile]

/-- A run on that file. -/
def literalRun (options : Options) (mappings : Bool) : Invocation :=
  ⟨"a\\b", none, some "o", options, mappings, false⟩

/-- Arguments that ask for the mappings of that file. -/
def literalArguments : List String := ["a\\b", "--mappings", "--max-depth=9", "-o", "o"]

theorem parse_literalArguments :
    parseArguments literalArguments = .ok (.run (literalRun ⟨true, true, true, 9⟩ true)) := rfl

theorem sourceUri_literalRun (options : Options) (mappings : Bool) :
    (literalRun options mappings).sourceUri = "a/b" := by
  show "a\\b".map _ = "a/b"
  rw [← String.toList_inj, String.toList_map]
  decide

/-- Its literal is mapped at both ends. -/
theorem snapshot_literalText :
    (Snapshot.ofText "a/b" literalText ⟨true, true, true, 9⟩).success = true
      ∧ (Snapshot.ofText "a/b" literalText ⟨true, true, true, 9⟩).mappings
        = [⟨3, 36, 0, 0, none⟩, ⟨3, 37, 0, 1, none⟩] := by
  have hboth : ((fun s : Snapshot => (s.success, s.mappings))
      (Snapshot.ofText "a/b" literalText ⟨true, true, true, 9⟩))
      = (true, [⟨3, 36, 0, 0, none⟩, ⟨3, 37, 0, 1, none⟩]) := by decide +kernel
  exact Prod.mk.inj hboth

theorem shown_literalText : (Snapshot.ofText "a/b" literalText ⟨true, true, true, 9⟩).shown true
    = "3:36 → 0:0\n3:37 → 0:1" := by
  rw [Snapshot.shown, snapshot_literalText.2]
  decide

/-- A document whose first statement is of no kind: the name of the kind has two lines. -/
def variantText : String :=
  "\x7b\"module\": \x7b\"statements\": [\x7b\"$type\": \"A\\nB\"\x7d]\x7d\x7d"

/-- A run on a file that holds it. -/
def variantRun : Invocation := ⟨"doc.json", none, none, ⟨true, true, true, 256⟩, false, false⟩

/-- Why it is no document. -/
def variantCause : String :=
  "unknown variant `A\nB`, expected `Definition` or `Evaluation` at line 1 column 43"

theorem produce_variantText : variantRun.produce (.ok variantText)
    = .error ⟨"Invalid document 'doc.json'",
      ["Invalid document: " ++ variantCause, variantCause]⟩ := by
  decide +kernel

theorem snapshot_variantText :
    (Snapshot.ofText variantRun.sourceUri variantText variantRun.options).error
      = some ("Invalid document: " ++ variantCause) := by
  rcases variantRun.produce_cases variantText with ⟨_, _, hproduce⟩ | ⟨refusal, hlibrary, hproduce⟩
  · cases produce_variantText.symm.trans hproduce
  · have hcauses : ["Invalid document: " ++ variantCause, variantCause] = refusalCauses refusal :=
      congrArg Report.causes (Except.error.inj (produce_variantText.symm.trans hproduce))
    have hhead := head_refusalCauses refusal
    rw [← hcauses] at hhead
    rw [Snapshot.ofText, hlibrary]
    exact hhead.symm

theorem produce_literalText : (literalRun ⟨true, true, true, 9⟩ true).produce (.ok literalText)
    = .ok "3:36 → 0:0\n3:37 → 0:1" := by
  rcases (literalRun ⟨true, true, true, 9⟩ true).produce_cases literalText with
    ⟨_, _, hproduce⟩ | ⟨refusal, hlibrary, _⟩
  · rw [hproduce, sourceUri_literalRun]
    exact congrArg Except.ok shown_literalText
  · have hsuccess := snapshot_literalText.1
    rw [sourceUri_literalRun] at hlibrary
    rw [Snapshot.ofText, show generateText "a/b" literalText ⟨true, true, true, 9⟩
      = _ from hlibrary] at hsuccess
    cases hsuccess

end Command

end ArithScript
