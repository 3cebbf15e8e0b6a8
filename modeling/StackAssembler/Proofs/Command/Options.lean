import Mathlib.Data.List.Induction
import Mathlib.Data.List.Nodup
import Mathlib.Data.Nat.Digits.Defs
import StackAssembler.Command.Request
import StackAssembler.Proofs.Hexadecimal

set_option autoImplicit false
set_option relaxedAutoImplicit false

namespace StackAssembler

/-- A text is a count: digits, maybe behind a plus sign, of a number that fits into a machine word. -/
def Text.Counts (text : String) (n : Nat) : Prop :=
  ∃ digits : List Char, (text.toList = digits ∨ text.toList = '+' :: digits) ∧ digits ≠ [] ∧
    (∀ c ∈ digits, c.isDigit = true) ∧
    n = Nat.ofDigits 10 (digits.map fun c => c.toNat - 48).reverse ∧ n < UInt64.size

/-- A text has the digits of the bytes, maybe behind a marker. -/
def Hex.Denotes (text : String) (bytes : Bytes) : Prop :=
  ∃ digits : List Char, (text.toList = digits ∨ text.toList = '0' :: 'x' :: digits) ∧
    Hex.Spells digits bytes.toList

section Values

private theorem ofDigits_eq (digits : List Char) :
    Text.ofDigits digits = Nat.ofDigits 10 (digits.map fun c => c.toNat - 48).reverse := by
  induction digits using List.reverseRecOn with
  | nil => rfl
  | append_singleton digits c ih =>
      rw [List.map_append, List.map_singleton, List.reverse_concat, Nat.ofDigits_cons, ← ih,
        Text.ofDigits, List.foldl_append]
      exact Nat.add_comm _ _

theorem Text.count?_eq_some_iff {text : String} {n : Nat} :
    Text.count? text = some n ↔ Text.Counts text n := by
  simp only [Text.count?, ofDigits_eq, List.all_eq_true, Option.ite_none_right_eq_some,
    Option.some.injEq]
  constructor
  · rintro ⟨⟨some, digits, fits⟩, rfl⟩
    refine ⟨_, ?_, some, digits, rfl, fits⟩
    split
    · rename_i signed
      exact .inr signed
    · exact .inl rfl
  · rintro ⟨digits, written, some, decimal, rfl, fits⟩
    rcases written with plain | signed
    · rw [plain]
      split
      · -- A sign is no digit, so it cannot be the first of them.
        have sign := decimal '+' List.mem_cons_self
        cases sign
      · exact ⟨⟨some, decimal, fits⟩, rfl⟩
    · rw [signed]
      exact ⟨⟨some, decimal, fits⟩, rfl⟩

theorem Hex.decode_unmarked_eq_ok_iff {text : String} {bytes : Bytes} :
    Hex.decode (Command.unmarked text) = .ok bytes ↔ Hex.Denotes text bytes := by
  rw [Hex.decode_eq_ok_iff, Command.unmarked]
  constructor
  · intro spells
    refine ⟨_, ?_, spells⟩
    split
    · rename_i marked
      rw [String.toList_ofList]
      exact .inr marked
    · exact .inl rfl
  · rintro ⟨digits, plain | marked, spells⟩
    · split
      · rename_i marked
        -- The second character of the marker is no digit.
        rw [← plain, marked] at spells
        generalize bytes.toList = listed at spells
        cases spells with
        | pair _ low _ => cases low
      · rwa [plain]
    · rw [marked]
      simpa using spells

end Values

namespace Command

inductive Setting
  | output (short : Bool) (path : String)
  | labelWidth (raw : String) (width : Nat) (counts : Text.Counts raw width)
  | calldata (raw : String) (bytes : Bytes) (denotes : Hex.Denotes raw bytes)
  | run

namespace Setting

def flag : Setting → Flag
  | .output _ _ => .output
  | .labelWidth _ _ _ => .labelWidth
  | .calldata _ _ _ => .calldata
  | .run => .run

def words : Setting → List String
  | .output short path => [if short then "-o" else "--output", path]
  | .labelWidth raw _ _ => ["--jump-width", raw]
  | .calldata raw _ _ => ["--calldata", raw]
  | .run => ["--run"]

def path? : Setting → Option String
  | .output _ path => some path
  | _ => none

def width? : Setting → Option Nat
  | .labelWidth _ width _ => some width
  | _ => none

def bytes? : Setting → Option Bytes
  | .calldata _ bytes _ => some bytes
  | _ => none

end Setting

def spelled (settings : List Setting) : List String :=
  settings.flatMap Setting.words

/-- What a sequence of options asks for: of each kind the last counts. -/
def Request.of (program : String) (settings : List Setting) : Request where
  program := program
  output := (settings.filterMap Setting.path?).getLast?
  labelWidth := (settings.filterMap Setting.width?).getLast?
  calldata := (settings.filterMap Setting.bytes?).getLast?
  run := decide (Flag.run ∈ settings.map Setting.flag)

/-- The first word starts no option, or one that has no value or none that can be read. -/
inductive Faulty : List String → Prop
  | unknown {word : String} {rest : List String} :
      word ∉ ["-o", "--output", "--jump-width", "--calldata", "--run"] → Faulty (word :: rest)
  | unvalued {word : String} :
      word ∈ ["-o", "--output", "--jump-width", "--calldata"] → Faulty [word]
  | labelWidth {raw : String} {rest : List String} :
      (∀ width, ¬ Text.Counts raw width) → Faulty ("--jump-width" :: raw :: rest)
  | calldata {raw : String} {rest : List String} :
      (∀ bytes, ¬ Hex.Denotes raw bytes) → Faulty ("--calldata" :: raw :: rest)

/-- Behind options that are well-formed something else stands. -/
def Misused (options : List String) : Prop :=
  ∃ settings rest, options = spelled settings ++ rest ∧ Faulty rest

section Grammar

private def Setting.add (request : Request) : Setting → Request
  | .output _ path => { request with output := some path }
  | .labelWidth _ width _ => { request with labelWidth := some width }
  | .calldata _ bytes _ => { request with calldata := some bytes }
  | .run => { request with run := true }

private theorem addOptions_labelWidth (request : Request) (raw : String) (rest : List String) :
    request.addOptions ("--jump-width" :: raw :: rest) =
      request.setLabelWidth raw >>= fun request => request.addOptions rest :=
  rfl

private theorem addOptions_calldata (request : Request) (raw : String) (rest : List String) :
    request.addOptions ("--calldata" :: raw :: rest) =
      request.setCalldata raw >>= fun request => request.addOptions rest :=
  rfl

private theorem addOptions_words (request : Request) (setting : Setting) (rest : List String) :
    request.addOptions (setting.words ++ rest) = (setting.add request).addOptions rest := by
  cases setting with
  | output short path => cases short <;> rfl
  | labelWidth raw width counts =>
      have read : request.setLabelWidth raw = .ok { request with labelWidth := some width } := by
        rw [Request.setLabelWidth, Text.count?_eq_some_iff.mpr counts]
      rw [Setting.words, List.cons_append, List.singleton_append, addOptions_labelWidth, read]
      rfl
  | calldata raw bytes denotes =>
      have read : request.setCalldata raw = .ok { request with calldata := some bytes } := by
        rw [Request.setCalldata, Hex.decode_unmarked_eq_ok_iff.mpr denotes]
      rw [Setting.words, List.cons_append, List.singleton_append, addOptions_calldata, read]
      rfl
  | run => rfl

private theorem addOptions_append (request : Request) (settings : List Setting)
    (rest : List String) :
    request.addOptions (spelled settings ++ rest) =
      (settings.foldl Setting.add request).addOptions rest := by
  induction settings generalizing request with
  | nil => rfl
  | cons setting settings ih =>
      rw [spelled, List.flatMap_cons, List.append_assoc, addOptions_words]
      exact ih (setting.add request)

private theorem foldl_add (program : String) (settings : List Setting) :
    settings.foldl Setting.add { program } = Request.of program settings := by
  -- The option that counts is the last one, so the sequence is taken apart from its end.
  induction settings using List.reverseRecOn with
  | nil => rfl
  | append_singleton settings setting ih =>
      rw [List.foldl_append, ih]
      cases setting <;> simp [Request.of, Setting.add, Setting.path?, Setting.width?,
        Setting.bytes?, Setting.flag]

theorem addOptions_spelled (program : String) (settings : List Setting) :
    Request.addOptions { program } (spelled settings) = .ok (Request.of program settings) := by
  have added := addOptions_append { program } settings []
  rwa [List.append_nil, foldl_add] at added

private theorem ofText?_eq_none {word : String}
    (unknown : word ∉ ["-o", "--output", "--jump-width", "--calldata", "--run"]) :
    Flag.ofText? word = none := by
  unfold Flag.ofText?
  split
  all_goals first
    | rfl
    | simp at unknown

private theorem addOptions_of_faulty (request : Request) {options : List String}
    (faulty : Faulty options) : ∃ error, request.addOptions options = .error error := by
  cases faulty with
  | @unknown word rest unknown =>
      refine ⟨.unexpected word, ?_⟩
      unfold Request.addOptions
      simp only [ofText?_eq_none unknown]
  | @unvalued word known =>
      refine ⟨.missingValue word, ?_⟩
      simp only [List.mem_cons, List.not_mem_nil, or_false] at known
      rcases known with rfl | rfl | rfl | rfl <;> rfl
  | @labelWidth raw rest unread =>
      have refused : request.setLabelWidth raw = .error (.invalidWidth raw) := by
        unfold Request.setLabelWidth
        cases found : Text.count? raw with
        | none => rfl
        | some width => exact absurd (Text.count?_eq_some_iff.mp found) (unread width)
      refine ⟨.invalidWidth raw, ?_⟩
      rw [addOptions_labelWidth, refused]
      rfl
  | @calldata raw rest unread =>
      cases found : Hex.decode (unmarked raw) with
      | ok bytes => exact absurd (Hex.decode_unmarked_eq_ok_iff.mp found) (unread bytes)
      | error cause =>
          have refused : request.setCalldata raw = .error (.invalidCalldata raw cause) := by
            rw [Request.setCalldata, found]
          refine ⟨.invalidCalldata raw cause, ?_⟩
          rw [addOptions_calldata, refused]
          rfl

theorem addOptions_of_misused (request : Request) {options : List String}
    (misused : Misused options) : ∃ error, request.addOptions options = .error error := by
  obtain ⟨settings, rest, rfl, faulty⟩ := misused
  rw [addOptions_append]
  exact addOptions_of_faulty _ faulty

private theorem spelled_or_misused_cons (setting : Setting) {options : List String}
    (behind : (∃ settings, options = spelled settings) ∨ Misused options) :
    (∃ settings, setting.words ++ options = spelled settings) ∨
      Misused (setting.words ++ options) := by
  rcases behind with ⟨settings, rfl⟩ | ⟨settings, rest, rfl, faulty⟩
  · exact .inl ⟨setting :: settings, List.flatMap_cons.symm⟩
  · refine .inr ⟨setting :: settings, rest, ?_, faulty⟩
    rw [spelled, spelled, List.flatMap_cons, List.append_assoc]

theorem spelled_or_misused : ∀ options : List String,
    (∃ settings, options = spelled settings) ∨ Misused options
  | [] => .inl ⟨[], rfl⟩
  | [word] => by
      by_cases executes : word = "--run"
      · exact .inl ⟨[.run], by rw [executes]; rfl⟩
      · refine .inr ⟨[], [word], rfl, ?_⟩
        by_cases known : word ∈ ["-o", "--output", "--jump-width", "--calldata"]
        · exact .unvalued known
        · exact .unknown (by simpa [executes] using known)
  | word :: value :: rest => by
      by_cases known : word ∈ ["-o", "--output", "--jump-width", "--calldata", "--run"]
      · simp only [List.mem_cons, List.not_mem_nil, or_false] at known
        rcases known with rfl | rfl | rfl | rfl | rfl
        · exact spelled_or_misused_cons (.output true value) (spelled_or_misused rest)
        · exact spelled_or_misused_cons (.output false value) (spelled_or_misused rest)
        · by_cases read : ∃ width, Text.Counts value width
          · obtain ⟨width, counts⟩ := read
            exact spelled_or_misused_cons (.labelWidth value width counts) (spelled_or_misused rest)
          · exact .inr ⟨[], _, rfl, .labelWidth (not_exists.mp read)⟩
        · by_cases read : ∃ bytes, Hex.Denotes value bytes
          · obtain ⟨bytes, denotes⟩ := read
            exact spelled_or_misused_cons (.calldata value bytes denotes) (spelled_or_misused rest)
          · exact .inr ⟨[], _, rfl, .calldata (not_exists.mp read)⟩
        · exact spelled_or_misused_cons .run (spelled_or_misused (value :: rest))
      · exact .inr ⟨[], _, rfl, .unknown known⟩

end Grammar

section Order

variable {settings settings' : List Setting}

def ofKind (flag : Flag) (settings : List Setting) : List Setting :=
  settings.filter fun setting => setting.flag = flag

private theorem filterMap_ofKind {α : Type} (read : Setting → Option α) {flag : Flag}
    (only : ∀ setting, setting.flag ≠ flag → read setting = none) (settings : List Setting) :
    (ofKind flag settings).filterMap read = settings.filterMap read := by
  rw [ofKind, List.filterMap_filter]
  apply List.filterMap_congr
  intro setting _
  by_cases kind : setting.flag = flag
  · rw [if_pos (decide_eq_true kind)]
  · rw [only setting kind, ite_self]

theorem Request.of_congr (same : ∀ flag, ofKind flag settings = ofKind flag settings')
    (program : String) : Request.of program settings = Request.of program settings' := by
  have agree {α : Type} (read : Setting → Option α) (flag : Flag)
      (only : ∀ setting, setting.flag ≠ flag → read setting = none) :
      settings.filterMap read = settings'.filterMap read := by
    rw [← filterMap_ofKind read only settings, same flag, filterMap_ofKind read only settings']
  have paths := agree Setting.path? .output fun setting other => by
    cases setting <;> first | rfl | exact absurd rfl other
  have widths := agree Setting.width? .labelWidth fun setting other => by
    cases setting <;> first | rfl | exact absurd rfl other
  have bytes := agree Setting.bytes? .calldata fun setting other => by
    cases setting <;> first | rfl | exact absurd rfl other
  have runs (settings : List Setting) :
      Flag.run ∈ settings.map Setting.flag ↔ ofKind .run settings ≠ [] := by
    simp [ofKind]
  simp only [Request.of, paths, widths, bytes, runs, same]

theorem ofKind_of_perm (shuffled : settings.Perm settings')
    (once : (settings.map Setting.flag).Nodup) (flag : Flag) :
    ofKind flag settings = ofKind flag settings' := by
  have single : (ofKind flag settings).length ≤ 1 := by
    have count := List.nodup_iff_count_le_one.mp once flag
    rw [List.count, List.countP_map, List.countP_eq_length_filter] at count
    exact count
  have kept : (ofKind flag settings).Perm (ofKind flag settings') := shuffled.filter _
  cases listed : ofKind flag settings with
  | nil =>
      rw [listed] at kept
      exact (List.nil_perm.mp kept).symm
  | cons setting rest =>
      rw [listed] at single kept
      have alone : rest = [] := by
        cases rest with
        | nil => rfl
        | cons => simp at single
      rw [alone] at kept ⊢
      exact List.singleton_perm.mp kept

end Order

end Command

end StackAssembler
