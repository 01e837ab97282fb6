import TinyKV.Proofs.Config

/-!
# What starting the server does to the configuration file

`load` has one answer for a file that is missing, one that cannot be opened and
one whose content does not pass `validate`, and `parse_arg` takes that answer
for a missing file: it opens the path for writing and puts the default
configuration there. A file that was there and did not validate is lost. That
is the only way an existing file changes, because the default content itself
loads.
-/

namespace TinyKV

open Text

namespace YamlConfigParser

/-- What the default file holds: the default configuration with one peer. -/
def defaultPeers : ServerConfig :=
  { cluster := { peers := [⟨str "node-1", str "127.0.0.1", 9006⟩] } }

theorem loadLine_comment (state : ServerConfig × Str) (text : Str) :
    loadLine state (35 :: text) = state := rfl

theorem load_comment {text : Str} (hline : 10 ∉ text) (rest : Str) :
    load ((35 :: text) ++ 10 :: rest) = load rest := by
  have hcomment : 10 ∉ (35 :: text : Str) := by simp [hline]
  rw [load, getlines_append_sep hcomment, List.foldl_cons, loadLine_comment]
  rfl

theorem defaultConfigYaml_eq : defaultConfigYaml =
    (35 :: str " TinyKVServer Configuration") ++ 10 :: toYaml defaultPeers := by
  decide +kernel

theorem load_defaultConfigYaml : load defaultConfigYaml = some defaultPeers := by
  have hpeers : ∀ peer ∈ defaultPeers.cluster.peers, peer.Clean := by
    intro peer hp
    obtain rfl := List.mem_singleton.mp hp
    exact ⟨by decide, by decide, by decide, by decide⟩
  rw [defaultConfigYaml_eq, load_comment (by decide)]
  exact load_toYaml ⟨by decide, by decide, by decide⟩ ⟨by decide, hpeers⟩ (by decide)

end YamlConfigParser

namespace ConfigLoader

/-- The bytes of the file stay what they are where there was a file to read; at
the configuration path a missing one is created; nothing happens elsewhere. -/
structure KeepsFiles (files : Str → ConfigFile) (args : List CliOption) : Prop where
  existing : ∀ path text, (files path).content = some text → (files path).readable = true →
    ((parseArg files args).2 path).content = some text
  missing : ∀ options, readOptions {} args = some options →
    (files options.configPath).content = none →
      (parseArg files args).2 options.configPath = createDefault (files options.configPath)
  others : ∀ path, (∀ options, readOptions {} args = some options → options.configPath ≠ path) →
    (parseArg files args).2 path = files path

section Files

variable {files : Str → ConfigFile} {args : List CliOption} {options : CliOptions}

theorem parseArg_throws (h : readOptions {} args = none) :
    parseArg files args = (none, files) := by
  rw [parseArg, h]

theorem parseArg_loads (h : readOptions {} args = some options) {config : ServerConfig}
    (hload : loadFile (files options.configPath) = some config) :
    parseArg files args = (some (override options config), files) := by
  simp only [parseArg, h, hload]

theorem parseArg_creates (h : readOptions {} args = some options)
    (hload : loadFile (files options.configPath) = none) :
    parseArg files args = (some (override options {}),
      Function.update files options.configPath (createDefault (files options.configPath))) := by
  simp only [parseArg, h, hload]

theorem parseArg_others {path : Str}
    (h : ∀ options, readOptions {} args = some options → options.configPath ≠ path) :
    (parseArg files args).2 path = files path := by
  cases hread : readOptions {} args with
  | none => rw [parseArg_throws hread]
  | some options =>
    cases hload : loadFile (files options.configPath) with
    | some config => rw [parseArg_loads hread hload]
    | none =>
      rw [parseArg_creates hread hload]
      exact Function.update_of_ne (h options hread).symm _ _

theorem parseArg_unloaded (h : readOptions {} args = some options)
    (hload : loadFile (files options.configPath) = none) :
    (parseArg files args).2 options.configPath = createDefault (files options.configPath) := by
  rw [parseArg_creates h hload]
  exact Function.update_self _ _ _

theorem parseArg_missing (h : readOptions {} args = some options)
    (hmissing : (files options.configPath).content = none) :
    (parseArg files args).2 options.configPath = createDefault (files options.configPath) := by
  have hload : loadFile (files options.configPath) = none := by
    rw [loadFile, hmissing]
    exact ite_self none
  exact parseArg_unloaded h hload

/-- The file at the configuration path keeps its content if it loads or cannot be
written, and only then. -/
theorem parseArg_existing (h : readOptions {} args = some options) {text : Str}
    (htext : (files options.configPath).content = some text)
    (hreadable : (files options.configPath).readable = true) :
    ((parseArg files args).2 options.configPath).content = some text ↔
      YamlConfigParser.load text ≠ none ∨ (files options.configPath).writable = false := by
  have hfile : loadFile (files options.configPath) = YamlConfigParser.load text := by
    rw [loadFile, if_pos hreadable, htext]
    rfl
  cases hload : YamlConfigParser.load text with
  | some config =>
    rw [parseArg_loads h (hfile.trans hload)]
    simp [htext]
  | none =>
    rw [parseArg_unloaded h (hfile.trans hload), createDefault]
    simp only [ne_eq, not_true, false_or]
    cases hwritable : (files options.configPath).writable with
    | false => simp [htext]
    | true =>
      -- the default content loads, so it is not the one that did not
      have hne : YamlConfigParser.defaultConfigYaml ≠ text := by
        rintro rfl
        rw [YamlConfigParser.load_defaultConfigYaml] at hload
        cases hload
      simp [hne]

end Files

theorem parseArg_keepsFiles_iff (files : Str → ConfigFile) (args : List CliOption) :
    KeepsFiles files args ↔
      ∀ options text, readOptions {} args = some options →
        (files options.configPath).content = some text →
        (files options.configPath).readable = true →
          YamlConfigParser.load text ≠ none ∨ (files options.configPath).writable = false := by
  constructor
  · intro hkeeps options text hread htext hreadable
    exact (parseArg_existing hread htext hreadable).1 (hkeeps.existing _ _ htext hreadable)
  · intro hloads
    refine ⟨?_, fun options hread => parseArg_missing hread, fun path => parseArg_others⟩
    intro path text htext hreadable
    by_cases hpath : ∃ options, readOptions {} args = some options ∧ options.configPath = path
    · obtain ⟨options, hread, rfl⟩ := hpath
      exact (parseArg_existing hread htext hreadable).2 (hloads options text hread htext hreadable)
    · rw [parseArg_others fun options hread heq => hpath ⟨options, hread, heq⟩]
      exact htext

/-- A file that says port 0, wherever one looks. -/
def portZero : Str → ConfigFile := fun _ => { content := some (str "node:\n  port: 0\n") }

/-- Without any option the file at the default path is read, does not validate
and is overwritten. -/
theorem portZero_overwritten :
    ((parseArg portZero []).2 ({} : CliOptions).configPath).content =
      some YamlConfigParser.defaultConfigYaml ∧
    ¬KeepsFiles portZero [] := by
  have hload : loadFile (portZero ({} : CliOptions).configPath) = none := by decide
  have hoverwritten : ((parseArg portZero []).2 ({} : CliOptions).configPath).content =
      some YamlConfigParser.defaultConfigYaml := by
    rw [parseArg_unloaded rfl hload]
    rfl
  refine ⟨hoverwritten, fun hkeeps => ?_⟩
  have hkept := hkeeps.existing ({} : CliOptions).configPath _ rfl rfl
  rw [hoverwritten] at hkept
  -- one begins with a comment, the other with a section
  have hhead := congrArg (Option.map List.head?) hkept
  revert hhead
  decide

end ConfigLoader

end TinyKV
