import StackAssembler.Command.Job
import StackAssembler.Proofs.Command.Options
import StackAssembler.Proofs.SamplePrograms
import StackAssembler.Proofs.StaticDepth

set_option autoImplicit false
set_option relaxedAutoImplicit false

namespace StackAssembler.Command

open Assembly Machine

def hexLine (bytes : Bytes) : String :=
  Hex.lowerCase bytes ++ "\n"

def Prepares (name : String) (settings : List Setting) (code : Bytes) : Prop :=
  ∃ program, Sample.byName? name = some program ∧
    compile { labelWidth := (Request.of name settings).labelWidth } program = .ok code

/-- What the code comes to with the bytes that it is given, which are none unless options say
otherwise. -/
def Executes (name : String) (settings : List Setting) (code : Bytes) (verdict : Verdict) : Prop :=
  (Request.of name settings).run = true ∧
    Concludes code ((Request.of name settings).calldata.getD #[]) verdict

section

-- What comes of writing bytes to a path.
variable (file : String → Bytes → Except String Unit)

def Saves (name : String) (settings : List Setting) (code : Bytes) : Prop :=
  ∀ path, (Request.of name settings).output = some path → file path code = .ok ()

/-- What is on standard output at the end of a command, and its exit code, by the stage at which it
ends. -/
inductive Staged : List String → String → Nat → Prop
  | nothing : Staged [] "" 1
  | help {word : String} {rest : List String} :
      word ∈ ["--help", "-h"] → Staged (word :: rest) "" 0
  | misused {name : String} {options : List String} :
      name ∉ ["--help", "-h"] → Misused options → Staged (name :: options) "" 1
  | unknown {name : String} {settings : List Setting} :
      name ∉ ["--help", "-h"] → name ∉ Sample.names → Staged (name :: spelled settings) "" 1
  | refused {name : String} {settings : List Setting} {program : Program} {error : Error} :
      Sample.byName? name = some program →
      compile { labelWidth := (Request.of name settings).labelWidth } program = .error error →
      Staged (name :: spelled settings) "" 1
  | unsaved {name : String} {settings : List Setting} {code : Bytes} :
      Prepares name settings code → ¬ Saves file name settings code →
      Staged (name :: spelled settings) (hexLine code) 1
  | listed {name : String} {settings : List Setting} {code : Bytes} :
      Prepares name settings code → Saves file name settings code →
      (Request.of name settings).run = false → Staged (name :: spelled settings) (hexLine code) 0
  | failed {name : String} {settings : List Setting} {code : Bytes} {fault : Fault} :
      Prepares name settings code → Saves file name settings code →
      Executes name settings code (.error fault) →
      Staged (name :: spelled settings) (hexLine code) 1
  | returned {name : String} {settings : List Setting} {code output : Bytes} :
      Prepares name settings code → Saves file name settings code →
      Executes name settings code (.ok output) →
      Staged (name :: spelled settings) (hexLine code ++ hexLine output) 0

/-- Given enough steps, the command ends with this on standard output and this exit code. -/
def Ends (args : List String) (stdout : String) (exitCode : Nat) : Prop :=
  ∃ enough, ∀ steps, enough ≤ steps → ∃ transcript, Command.run steps file args = some transcript ∧
    transcript.stdout = stdout ∧ transcript.exitCode = exitCode

end

section Start

variable {name : String} {options : List String}

private theorem parse_eq (plain : name ∉ ["--help", "-h"]) :
    Call.parse (name :: options) = .assemble (Request.addOptions { program := name } options) := by
  unfold Call.parse
  split
  · rename_i empty
    cases empty
  · rename_i same
    cases same
    simp at plain
  · rename_i same
    cases same
    simp at plain
  · rename_i same
    cases same
    rfl

private theorem start_spelled (plain : name ∉ ["--help", "-h"]) (settings : List Setting) :
    start (name :: spelled settings) = Job.prepare (Request.of name settings) := by
  rw [start, parse_eq plain, addOptions_spelled]

private theorem start_of_misused (plain : name ∉ ["--help", "-h"]) (misused : Misused options) :
    ∃ error : OptionError, start (name :: options) = .error error.transcript := by
  obtain ⟨error, refused⟩ := addOptions_of_misused { program := name } misused
  refine ⟨error, ?_⟩
  rw [start, parse_eq plain, refused]

theorem byName?_eq_none_iff : Sample.byName? name = none ↔ name ∉ Sample.names := by
  unfold Sample.byName?
  split
  all_goals simp_all [Sample.names]

private theorem plain_of_byName? {program : Program} (found : Sample.byName? name = some program) :
    name ∉ ["--help", "-h"] := by
  intro asks
  have unknown : Sample.byName? name = none := by
    rw [byName?_eq_none_iff]
    rcases List.mem_pair.mp asks with rfl | rfl <;> decide
  rw [unknown] at found
  cases found

end Start

section Printing

theorem stdout_after (events : List Event) (transcript : Transcript) :
    (transcript.after events).stdout =
      String.join (events.map Event.stdout) ++ transcript.stdout := by
  rw [Transcript.stdout, Transcript.after, List.map_append, String.join_append]
  rfl

private theorem stdout_opening (job : Job) :
    String.join (job.opening.map Event.stdout) = hexLine job.bytecode := by
  simp [Job.opening, Job.announcement, Event.stdout, hexLine, Hex.encode_eq_lowerCase]

private theorem stdout_written (job : Job) : String.join (job.written.map Event.stdout) = "" := by
  unfold Job.written
  split <;> rfl

private theorem stdout_unusedCalldata (job : Job) :
    String.join (job.unusedCalldata.map Event.stdout) = "" := by
  unfold Job.unusedCalldata
  split <;> rfl

private theorem stdout_returned (output : Bytes) :
    (Job.verdict (.ok output)).stdout = hexLine output := by
  simp [Job.verdict, Transcript.stdout, Event.stdout, hexLine, Hex.encode_eq_lowerCase]

private theorem stdout_optionError (error : OptionError) :
    error.transcript.stdout = "" ∧ error.transcript.exitCode = 1 := by
  cases error <;> exact ⟨rfl, rfl⟩

end Printing

section Ending

variable {file : String → Bytes → Except String Unit} {args : List String} {name : String}
  {settings : List Setting} {code : Bytes} {job : Job}

private theorem ends_of_stopped {transcript : Transcript} (stopped : start args = .error transcript)
    (silent : transcript.stdout = "") : Ends file args "" transcript.exitCode := by
  refine ⟨0, fun steps _ => ⟨transcript, ?_, silent, rfl⟩⟩
  rw [Command.run, stopped]

private theorem ends_of_finished {transcript : Transcript} {enough : Nat}
    (started : start args = .ok job)
    (finished : ∀ steps, enough ≤ steps → job.finish steps (job.write file) = some transcript) :
    Ends file args (hexLine job.bytecode ++ transcript.stdout) transcript.exitCode := by
  refine ⟨enough, fun steps within => ⟨transcript.after job.opening, ?_, ?_, rfl⟩⟩
  · simp only [Command.run, started, finished steps within, Option.map_some]
  · rw [stdout_after, stdout_opening]

private theorem ends_of_unsaved {cause : String} (started : start args = .ok job)
    (unsaved : job.write file = .error cause) : Ends file args (hexLine job.bytecode) 1 := by
  have finished : ∀ steps, 0 ≤ steps → job.finish steps (job.write file) =
      some (.failure ("Failed to write output file: " ++ cause)) := by
    intro steps _
    rw [unsaved]
    rfl
  have ends := ends_of_finished started finished
  rwa [show (Transcript.failure _).stdout = "" from rfl, String.append_empty] at ends

private theorem ends_of_executed {transcript : Transcript} {enough : Nat}
    (started : start args = .ok job) (saved : job.write file = .ok ())
    (executed : ∀ steps, enough ≤ steps → job.execution steps = some transcript) :
    Ends file args (hexLine job.bytecode ++ transcript.stdout) transcript.exitCode := by
  have finished : ∀ steps, enough ≤ steps → job.finish steps (job.write file) =
      some (transcript.after job.written) := by
    intro steps within
    rw [saved, Job.finish, executed steps within, Option.map_some]
  have ends := ends_of_finished started finished
  rwa [stdout_after, stdout_written, String.empty_append] at ends

private theorem exists_job (prepares : Prepares name settings code) :
    ∃ job, start (name :: spelled settings) = .ok job ∧ job.request = Request.of name settings ∧
      job.bytecode = code := by
  obtain ⟨program, found, compiled⟩ := prepares
  have request : (Request.of name settings).program = name := rfl
  refine ⟨⟨Request.of name settings, program.length, code⟩, ?_, rfl, rfl⟩
  rw [start_spelled (plain_of_byName? found), Job.prepare, request, found]
  simp only [compiled]

private theorem saves_iff (request : job.request = Request.of name settings) :
    Saves file name settings job.bytecode ↔ job.write file = .ok () := by
  rw [Saves, ← request, Job.write]
  cases job.request.output with
  | none => simp
  | some path => simp

private theorem execution_of_executes {verdict : Verdict}
    (request : job.request = Request.of name settings)
    (executes : Executes name settings job.bytecode verdict) :
    ∃ enough, ∀ steps, enough ≤ steps → job.execution steps = some (Job.verdict verdict) := by
  obtain ⟨runs, enough, concluded⟩ := executes
  refine ⟨enough, fun steps within => ?_⟩
  rw [Job.execution, request, if_pos runs, concluded steps within, Option.map_some]

theorem ends_of_staged {stdout : String} {exitCode : Nat}
    (staged : Staged file args stdout exitCode) : Ends file args stdout exitCode := by
  cases staged with
  | nothing =>
      have stopped : start [] = .error (help 1) := rfl
      exact ends_of_stopped stopped rfl
  | @help word rest asks =>
      have stopped : start (word :: rest) = .error (help 0) := by
        rcases List.mem_pair.mp asks with rfl | rfl <;> rfl
      exact ends_of_stopped stopped rfl
  | misused plain misused =>
      obtain ⟨error, stopped⟩ := start_of_misused plain misused
      obtain ⟨silent, exitCode⟩ := stdout_optionError error
      rw [← exitCode]
      exact ends_of_stopped stopped silent
  | @unknown name settings plain unknown =>
      have absent : Sample.byName? (Request.of name settings).program = none :=
        byName?_eq_none_iff.mpr unknown
      have stopped := start_spelled plain settings
      rw [Job.prepare, absent] at stopped
      exact ends_of_stopped stopped rfl
  | @refused name settings program error found refused =>
      have named : Sample.byName? (Request.of name settings).program = some program := found
      have stopped := start_spelled (plain_of_byName? found) settings
      rw [Job.prepare, named] at stopped
      simp only [refused] at stopped
      exact ends_of_stopped stopped rfl
  | unsaved prepares unsaved =>
      obtain ⟨job, started, request, rfl⟩ := exists_job prepares
      rw [saves_iff request] at unsaved
      cases outcome : job.write file with
      | ok => exact absurd outcome unsaved
      | error cause => exact ends_of_unsaved started outcome
  | listed prepares saves lists =>
      obtain ⟨job, started, request, rfl⟩ := exists_job prepares
      rw [saves_iff request] at saves
      have executed : ∀ steps, 0 ≤ steps → job.execution steps = some ⟨job.unusedCalldata, 0⟩ := by
        intro steps _
        rw [Job.execution, request, lists]
        rfl
      have ends := ends_of_executed started saves executed
      rwa [Transcript.stdout, stdout_unusedCalldata, String.append_empty] at ends
  | failed prepares saves executes =>
      obtain ⟨job, started, request, rfl⟩ := exists_job prepares
      obtain ⟨enough, executed⟩ := execution_of_executes request executes
      have ends := ends_of_executed started ((saves_iff request).mp saves) executed
      rwa [show (Job.verdict (.error _)).stdout = "" from rfl, String.append_empty] at ends
  | returned prepares saves executes =>
      obtain ⟨job, started, request, rfl⟩ := exists_job prepares
      obtain ⟨enough, executed⟩ := execution_of_executes request executes
      have ends := ends_of_executed started ((saves_iff request).mp saves) executed
      rwa [stdout_returned] at ends

end Ending

section Totality

variable {file : String → Bytes → Except String Unit} {args : List String} {name : String}

theorem concludes_of_byName? {program : Program} {given : Option Nat} {code : Bytes}
    (found : Sample.byName? name = some program)
    (compiled : compile { labelWidth := given } program = .ok code) (calldata : Bytes) :
    ∃ verdict, Concludes code calldata verdict := by
  unfold Sample.byName? at found
  split at found
  · cases found
    exact concludes_of_straight (Nat.le_refl _) compiled (by decide) calldata
  · cases found
    exact concludes_of_straight (Nat.le_refl _) compiled (by decide) calldata
  · cases found
    exact HashOrEcho.exists_concludes compiled calldata
  · cases found

private theorem exists_staged_of_prepares {settings : List Setting} {code : Bytes}
    (prepares : Prepares name settings code) :
    ∃ stdout exitCode, Staged file (name :: spelled settings) stdout exitCode := by
  by_cases saves : Saves file name settings code
  · cases runs : (Request.of name settings).run with
    | false => exact ⟨_, _, .listed prepares saves runs⟩
    | true =>
        obtain ⟨program, found, compiled⟩ := prepares
        obtain ⟨verdict, concludes⟩ := concludes_of_byName? found compiled
          ((Request.of name settings).calldata.getD #[])
        cases verdict with
        | ok output => exact ⟨_, _, .returned ⟨program, found, compiled⟩ saves ⟨runs, concludes⟩⟩
        | error fault => exact ⟨_, _, .failed ⟨program, found, compiled⟩ saves ⟨runs, concludes⟩⟩
  · exact ⟨_, _, .unsaved prepares saves⟩

theorem exists_staged (file : String → Bytes → Except String Unit) (args : List String) :
    ∃ stdout exitCode, Staged file args stdout exitCode := by
  cases args with
  | nil => exact ⟨_, _, .nothing⟩
  | cons name options =>
      by_cases asks : name ∈ ["--help", "-h"]
      · exact ⟨_, _, .help asks⟩
      · rcases spelled_or_misused options with ⟨settings, rfl⟩ | misused
        · cases found : Sample.byName? name with
          | none => exact ⟨_, _, .unknown asks (byName?_eq_none_iff.mp found)⟩
          | some program =>
              cases compiled : compile { labelWidth := (Request.of name settings).labelWidth }
                  program with
              | error error => exact ⟨_, _, .refused found compiled⟩
              | ok code => exact exists_staged_of_prepares ⟨program, found, compiled⟩
        · exact ⟨_, _, .misused asks misused⟩

private theorem Ends.unique {stdout stdout' : String} {exitCode exitCode' : Nat}
    (ends : Ends file args stdout exitCode)
    (ends' : Ends file args stdout' exitCode') : stdout = stdout' ∧ exitCode = exitCode' := by
  obtain ⟨enough, reached⟩ := ends
  obtain ⟨enough', reached'⟩ := ends'
  obtain ⟨transcript, found, printed, left⟩ := reached _ (Nat.le_max_left enough enough')
  obtain ⟨transcript', found', printed', left'⟩ := reached' _ (Nat.le_max_right enough enough')
  rw [found] at found'
  cases found'
  exact ⟨printed.symm.trans printed', left.symm.trans left'⟩

end Totality

structure RunsInStages (file : String → Bytes → Except String Unit) : Prop where
  ends : ∀ args, ∃ stdout exitCode, Ends file args stdout exitCode
  staged : ∀ args stdout exitCode, Ends file args stdout exitCode ↔ Staged file args stdout exitCode
  /-- All that is said is the same, step for step, if options of different kinds change places. -/
  mixed : ∀ steps name settings settings',
    (∀ flag, ofKind flag settings = ofKind flag settings') →
      Command.run steps file (name :: spelled settings) =
        Command.run steps file (name :: spelled settings')
  /-- In particular, options that are given once each can stand in any order. -/
  shuffled : ∀ steps name settings settings', settings.Perm settings' →
    (settings.map Setting.flag).Nodup →
      Command.run steps file (name :: spelled settings) =
        Command.run steps file (name :: spelled settings')

private theorem run_congr_options {settings settings' : List Setting}
    (same : ∀ flag, ofKind flag settings = ofKind flag settings') (steps : Nat)
    (file : String → Bytes → Except String Unit) (name : String) :
    Command.run steps file (name :: spelled settings) =
      Command.run steps file (name :: spelled settings') := by
  have starts : start (name :: spelled settings) = start (name :: spelled settings') := by
    by_cases asks : name ∈ ["--help", "-h"]
    · rcases List.mem_pair.mp asks with rfl | rfl <;> rfl
    · rw [start_spelled asks, start_spelled asks, Request.of_congr same]
  rw [Command.run, Command.run, starts]

/-- Whatever comes of writing files, commands end in stages. -/
theorem command_runs_in_stages (file : String → Bytes → Except String Unit) : RunsInStages file where
  ends args := by
    obtain ⟨stdout, exitCode, staged⟩ := exists_staged file args
    exact ⟨stdout, exitCode, ends_of_staged staged⟩
  staged args stdout exitCode := by
    refine ⟨fun ends => ?_, ends_of_staged⟩
    obtain ⟨_, _, staged⟩ := exists_staged file args
    obtain ⟨rfl, rfl⟩ := ends.unique (ends_of_staged staged)
    exact staged
  mixed steps name settings settings' same := run_congr_options same steps file name
  shuffled steps name settings settings' perm once :=
    run_congr_options (ofKind_of_perm perm once) steps file name

end StackAssembler.Command
