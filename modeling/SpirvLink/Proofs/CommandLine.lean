/-
  SpirvLink.Proofs.CommandLine — the program is all or nothing on files.

  A step on files is `Harmless` when a failure leaves the tree as it was, and `Gives` tells
  what it answers and leaves when it succeeds. Reading is harmless and changes nothing, and
  a link of files creates its output as the last of its steps, so a link is harmless too.

  `run_all_or_nothing`: a run with another exit code than 0 changes nothing; a link ends
  with exit code 0 exactly when its options are valid, both inputs are read and linked and
  the output path leads to a file (`Arguments.Links`), and then the output is the one file
  that changes. It holds however arguments and configurations are read.
-/

import SpirvLink.CommandLine.Run
import SpirvLink.Proofs.Files
import SpirvLink.Proofs.Text.Lines

namespace SpirvLink

variable {α β : Type} {t t' : FileTree}

/-! ## Steps on a tree of files -/

/-- The step succeeds on the tree with the answer and leaves the other tree. -/
def Gives (x : StateM FileTree (Logged α)) (t : FileTree) (a : α) (t' : FileTree) : Prop :=
  (x.run t).1.result = .ok a ∧ (x.run t).2 = t'

/-- A failure of the step leaves the tree as it was. -/
def Harmless (x : StateM FileTree (Logged α)) : Prop :=
  ∀ t e, (x.run t).1.result = .error e → (x.run t).2 = t

theorem run_bind_eq {x : StateM FileTree α} {f : α → StateM FileTree β} {a : α} (h : x.run t = (a, t')) :
    (x >>= f).run t = (f a).run t' := by
  rw [StateT.run_bind, h]
  rfl

section

variable {x : Logged α} {f : α → StateM FileTree (Logged β)} {a : α} {b : β} {path text : Text}

theorem andThen_ok (h : x.result = .ok a) :
    (x.andThen f).run t = (⟨x.log ++ ((f a).run t).1.log, ((f a).run t).1.result⟩, ((f a).run t).2) := by
  unfold Logged.andThen
  simp only [h]
  rfl

theorem andThen_error {e : LinkError} (h : x.result = .error e) : (x.andThen f).run t = (⟨x.log, .error e⟩, t) := by
  unfold Logged.andThen
  simp only [h]
  rfl

theorem andThen_gives : Gives (x.andThen f) t b t' ↔ ∃ a, x.result = .ok a ∧ Gives (f a) t b t' := by
  unfold Gives
  cases h : x.result with
  | error e =>
    rw [andThen_error h]
    exact ⟨fun h => (by cases h.1), fun ⟨_, h, _⟩ => (by cases h)⟩
  | ok a =>
    rw [andThen_ok h]
    exact ⟨fun h => ⟨a, rfl, h⟩, fun ⟨_, ha, h⟩ => (by cases ha; exact h)⟩

theorem andThen_harmless (h : ∀ a, Harmless (f a)) : Harmless (x.andThen f) := by
  intro t e he
  cases hx : x.result with
  | error e' => rw [andThen_error hx]
  | ok a =>
    rw [andThen_ok hx] at he ⊢
    exact h a t e he

/-- A file is read before the rest of a step, from the tree that the step is taken on. -/
theorem readFile_gives {next : Except LinkError Text → StateM FileTree (Logged β)} :
    Gives (readFile path >>= next) t b t' ↔ Gives (next ((t.read path).mapError (.file path))) t b t' :=
  Iff.rfl

theorem readFile_harmless {next : Except LinkError Text → StateM FileTree (Logged β)}
    (h : ∀ content, Harmless (next content)) : Harmless (readFile path >>= next) :=
  fun t => h _ t

theorem create_ok (h : t.create path text = .ok t') :
    (FileAccess.create path text : StateM FileTree _).run t = (.ok (), t') := by
  simp only [FileAccess.create, StateT.run_bind, StateT.run_get, pure_bind, h]
  rfl

theorem create_error {fault : FileFault} (h : t.create path text = .error fault) :
    (FileAccess.create path text : StateM FileTree _).run t = (.error fault, t) := by
  simp only [FileAccess.create, StateT.run_bind, StateT.run_get, pure_bind, h]
  rfl

/-- Creates a file and then answers. -/
def createThen (path text : Text) (a : α) : StateM FileTree (Logged α) := do
  let written ← createFile path text
  return Logged.ofExcept (written.map fun _ => a)

theorem createThen_gives {a b : α} : Gives (createThen path text a) t b t' ↔
    b = a ∧ ∃ place, t.Places path place ∧ t' = t.put place (.file (some text)) := by
  unfold Gives createThen createFile
  cases hc : t.create path text with
  | ok made =>
    obtain ⟨place, hp⟩ := FileTree.places_of_create hc
    simp only [StateT.run_bind, create_ok hc]
    constructor
    · rintro ⟨hb, rfl⟩
      cases hb
      exact ⟨rfl, place, hp, Except.ok.inj (hc.symm.trans (hp.create text))⟩
    · rintro ⟨rfl, place, hp, rfl⟩
      exact ⟨rfl, Except.ok.inj (hc.symm.trans (hp.create text))⟩
  | error fault =>
    simp only [StateT.run_bind, create_error hc]
    constructor
    · rintro ⟨h, -⟩
      cases h
    · rintro ⟨-, place, hp, -⟩
      cases hc.symm.trans (hp.create text)

theorem createThen_harmless (a : α) : Harmless (createThen path text a) := by
  intro t e he
  unfold createThen createFile at he ⊢
  cases hc : t.create path text with
  | ok t' =>
    simp only [StateT.run_bind, create_ok hc] at he
    cases he
  | error fault =>
    simp only [StateT.run_bind, create_error hc]
    rfl

end

/-! ## A link of files -/

section

variable [KeyOrder] {o : Options} {kernel wrapper output : Text} {stats : LinkStats}

/-- A link of files succeeds as the link of their texts does, and creates the output. -/
theorem linkFiles_gives : Gives (linkFiles o kernel wrapper output) t stats t' ↔
    ∃ kernelText wrapperText linked place, t.read kernel = .ok kernelText ∧ t.read wrapper = .ok wrapperText ∧
      (linkSources o kernelText wrapperText).result = .ok linked ∧ t.Places output place ∧
      stats = linked.stats ∧ t' = t.put place (.file (some (linked.module.toText o.annotate))) := by
  unfold linkFiles linkSources
  simp only [readFile_gives, andThen_gives, Logged.bind_result_eq_ok, Logged.result_ofExcept, mapError_eq_ok]
  change (∃ kernelModule, _ ∧ ∃ wrapperModule, _ ∧ ∃ linked : Linked, _ ∧ Gives (createThen _ _ linked.stats) t stats t') ↔ _
  simp only [createThen_gives]
  constructor
  · rintro ⟨_, ⟨_, hk, hkm⟩, _, ⟨_, hw, hwm⟩, linked, hl, rfl, place, hp, rfl⟩
    exact ⟨_, _, linked, place, hk, hw, ⟨_, hkm, _, hwm, hl⟩, hp, rfl, rfl⟩
  · rintro ⟨_, _, linked, place, hk, hw, ⟨_, hkm, _, hwm, hl⟩, hp, rfl, rfl⟩
    exact ⟨_, ⟨_, hk, hkm⟩, _, ⟨_, hw, hwm⟩, linked, hl, rfl, place, hp, rfl⟩

theorem linkFiles_harmless : Harmless (linkFiles o kernel wrapper output) :=
  readFile_harmless fun _ => andThen_harmless fun _ => readFile_harmless fun _ => andThen_harmless fun _ =>
    andThen_harmless fun linked => createThen_harmless linked.stats

end

namespace CommandLine

section

variable [OptionsReader] {a : Arguments} {base o : Options} {arguments : List Text}

/-! ## The options of a run -/

/-- The options that the arguments start from on a tree of files. -/
def Arguments.StartsFrom (a : Arguments) (t : FileTree) (base : Options) : Prop :=
  match a.config with
  | none => base = .standard
  | some path => ∃ content, t.read path = .ok content ∧ OptionsReader.read? content = some base ∧ base.validate = .ok ()

theorem ofText_eq_ok {path content : Text} : Options.ofText path content = .ok base ↔
    OptionsReader.read? content = some base ∧ base.validate = .ok () := by
  unfold Options.ofText
  cases OptionsReader.read? content with
  | none => simp
  | some o =>
    simp only [bind_eq_ok, Option.some.injEq]
    constructor
    · rintro ⟨u, hu, h⟩
      cases h
      exact ⟨rfl, hu⟩
    · rintro ⟨rfl, h⟩
      exact ⟨(), h, rfl⟩

theorem configured_eq_ok : ((configured a : StateM FileTree _).run t).1 = .ok base ↔ a.StartsFrom t base := by
  unfold configured Arguments.StartsFrom
  cases a.config with
  | none => exact ⟨fun h => (by cases h; rfl), fun h => (by cases h; rfl)⟩
  | some path =>
    change Except.mapError _ (Except.bind ((t.read path).mapError (.file path)) (Options.ofText path)) = .ok base ↔ _
    rw [mapError_eq_ok]
    change ((t.read path).mapError (.file path) >>= Options.ofText path) = .ok base ↔ _
    simp only [bind_eq_ok, mapError_eq_ok, ofText_eq_ok]

theorem configured_tree : ((configured a : StateM FileTree _).run t).2 = t := by
  unfold configured
  cases a.config with
  | none => rfl
  | some path => rfl

theorem loadOptions_eq_ok : ((loadOptions a : StateM FileTree _).run t).1 = .ok o ↔
    ∃ base, a.StartsFrom t base ∧ o = a.override base ∧ o.validate = .ok () := by
  change ((configured a : StateM FileTree _).run t).1 >>= (fun base =>
    ((a.override base).validate.mapError (Failure.mk "")).map fun _ => a.override base) = .ok o ↔ _
  simp only [bind_eq_ok, configured_eq_ok, map_eq_ok, mapError_eq_ok]
  constructor
  · rintro ⟨base, hbase, u, hu, rfl⟩
    exact ⟨base, hbase, rfl, hu⟩
  · rintro ⟨base, hbase, rfl, hu⟩
    exact ⟨base, hbase, (), hu, rfl⟩

theorem loadOptions_tree : ((loadOptions a : StateM FileTree _).run t).2 = t :=
  configured_tree

/-! ## A run -/

variable [KeyOrder]

/-- What the arguments ask for can be done on a tree of files: the options are those of the
    configuration with what the arguments override, and valid; the texts of the kernel and
    the wrapper link under them; and the output path leads to a file, or to a place for one. -/
structure Arguments.Links (a : Arguments) (t : FileTree) (o : Options) (linked : Linked) (place : List Text) :
    Prop where
  options : ∃ base, a.StartsFrom t base ∧ o = a.override base ∧ o.validate = .ok ()
  sources : ∃ kernel wrapper, t.read a.kernel = .ok kernel ∧ t.read a.wrapper = .ok wrapper ∧
    (linkSources o kernel wrapper).result = .ok linked
  output : t.Places a.outputPath place

theorem runLink_refused {f : Failure} (h : ((loadOptions a : StateM FileTree _).run t).1 = .error f) :
    (runLink a : StateM FileTree _).run t = (failed [] f, t) := by
  have loaded : (loadOptions a : StateM FileTree _).run t = (.error f, t) := Prod.ext h loadOptions_tree
  simp only [runLink, StateT.run_bind, loaded]
  rfl

/-- With options a run leaves what the link of files leaves, and its exit code tells whether
    that succeeded. -/
theorem runLink_linked (h : ((loadOptions a : StateM FileTree _).run t).1 = .ok o) :
    let ended := (runLink a : StateM FileTree _).run t
    let link := (linkFiles o a.kernel a.wrapper a.outputPath : StateM FileTree _).run t
    ended.2 = link.2 ∧ (ended.1.exitCode = 0 ↔ ∃ stats, link.1.result = .ok stats) := by
  intro ended link
  have loaded : (loadOptions a : StateM FileTree _).run t = (.ok o, t) := Prod.ext h loadOptions_tree
  rcases hrun : (linkFiles o a.kernel a.wrapper a.outputPath : StateM FileTree _).run t with ⟨⟨log, result⟩, left⟩
  have link_eq : link = (⟨log, result⟩, left) := hrun
  have ended_eq : ended = _ := (run_bind_eq loaded).trans (run_bind_eq hrun)
  rw [ended_eq, link_eq]
  cases result with
  | error e => exact ⟨rfl, fun h => (by cases h), fun ⟨_, h⟩ => (by cases h)⟩
  | ok stats => exact ⟨rfl, fun _ => ⟨stats, rfl⟩, fun _ => rfl⟩

/-- A link that fails changes nothing and was not possible; one that succeeds was, and
    creates the output. -/
theorem runLink_spec (a : Arguments) (t : FileTree) :
    let ended := (runLink a : StateM FileTree _).run t
    (ended.1.exitCode ≠ 0 ∧ ended.2 = t ∧ ∀ o linked place, ¬ a.Links t o linked place) ∨
    (ended.1.exitCode = 0 ∧ ∃ o linked place, a.Links t o linked place ∧
      ended.2 = t.put place (.file (some (linked.module.toText o.annotate)))) := by
  intro ended
  cases hload : ((loadOptions a : StateM FileTree _).run t).1 with
  | error f =>
    refine .inl ?_
    rw [show ended = (failed [] f, t) from runLink_refused hload]
    refine ⟨Nat.one_ne_zero, rfl, fun o linked place h => ?_⟩
    cases hload.symm.trans (loadOptions_eq_ok.mpr h.options)
  | ok o =>
    obtain ⟨htree, hcode⟩ := runLink_linked hload
    cases hresult : ((linkFiles o a.kernel a.wrapper a.outputPath : StateM FileTree _).run t).1.result with
    | error e =>
      refine .inl ⟨fun h => ?_, htree.trans (linkFiles_harmless t e hresult), fun o' linked place h => ?_⟩
      · obtain ⟨stats, hstats⟩ := hcode.mp h
        cases hresult.symm.trans hstats
      · cases hload.symm.trans (loadOptions_eq_ok.mpr h.options)
        obtain ⟨kernel, wrapper, hk, hw, hl⟩ := h.sources
        have gives := linkFiles_gives.mpr ⟨kernel, wrapper, linked, place, hk, hw, hl, h.output, rfl, rfl⟩
        cases hresult.symm.trans gives.1
    | ok stats =>
      obtain ⟨kernel, wrapper, linked, place, hk, hw, hl, hp, -, hput⟩ := linkFiles_gives.mp ⟨hresult, rfl⟩
      exact .inr ⟨hcode.mpr ⟨stats, hresult⟩, o, linked, place,
        ⟨loadOptions_eq_ok.mp hload, ⟨kernel, wrapper, hk, hw, hl⟩, hp⟩, htree.trans hput⟩

/-- A run is all or nothing on files. -/
theorem run_all_or_nothing [ArgumentReader] (arguments : List Text) (t : FileTree) :
    let ended := (run arguments : StateM FileTree Outcome).run t
    (ended.1.exitCode ≠ 0 → ended.2 = t) ∧
    ((∀ a, ArgumentReader.request arguments ≠ .link a) → ended.2 = t) ∧
    ∀ a, ArgumentReader.request arguments = .link a →
      (ended.1.exitCode = 0 ↔ ∃ o linked place, a.Links t o linked place) ∧
      (ended.1.exitCode = 0 → ∃ o linked place, a.Links t o linked place ∧
        let text := linked.module.toText o.annotate
        ended.2.node? place = some (.file (some text)) ∧ ended.2.read a.outputPath = .ok text ∧
          (∀ other, other ≠ place → ended.2.node? other = t.node? other) ∧
          ended.2.workingDirectory = t.workingDirectory) := by
  intro ended
  cases hrequest : ArgumentReader.request arguments with
  | help | version | misuse =>
    have same : ended.2 = t := by simp only [ended, run, hrequest]; rfl
    exact ⟨fun _ => same, fun _ => same, fun a h => (by cases h)⟩
  | link a =>
    have linking : ended = (runLink a : StateM FileTree _).run t := by simp only [ended, run, hrequest]
    rw [linking]
    obtain ⟨hcode, htree, hnot⟩ | ⟨hcode, o, linked, place, links, hput⟩ := runLink_spec a t
    · refine ⟨fun _ => htree, fun _ => htree, fun a' ha' => ?_⟩
      cases ha'
      exact ⟨⟨fun h => absurd h hcode, fun ⟨o, linked, place, h⟩ => absurd h (hnot o linked place)⟩,
        fun h => absurd h hcode⟩
    · refine ⟨fun h => absurd hcode h, fun h => absurd rfl (h a), fun a' ha' => ?_⟩
      cases ha'
      refine ⟨⟨fun _ => ⟨o, linked, place, links⟩, fun _ => hcode⟩, fun _ => ⟨o, linked, place, links, ?_⟩⟩
      rw [hput]
      exact ⟨FileTree.node?_put (FileTree.ne_nil_of_locate links.output.leads), links.output.read_put _,
        fun other h => FileTree.node?_put_of_ne h, rfl⟩

end

/-- A directory with a kernel, a wrapper and a configuration. -/
def sampleTree : FileTree :=
  { workingDirectory := ["home".toList]
    nodes :=
      [(["home".toList], .directory), (["home".toList, "o.json".toList], .file (some "[\"lib_\"]".toList)),
        (["home".toList, "k.spt".toList], .file (some (.ofLines ["%uint = OpTypeInt 32 0",
          "%one = OpConstant %uint 1", "%k = OpFunction %uint None %fn", "%l = OpLabel", "OpReturnValue %one",
          "OpFunctionEnd"]))),
        (["home".toList, "w.spt".toList], .file (some (.ofLines ["%RS_KERNELS = OpString \"%k \"",
          "%uint = OpTypeInt 32 0", "%buf = OpVariable %ptr Uniform", "%main = OpFunction %void None %fv",
          "%lm = OpLabel", "%r = OpFunctionCall %uint %RS_SPIRV_DUMMY_", "OpStore %buf %r", "OpReturn",
          "OpFunctionEnd"])))] }

def sampleArguments : Arguments :=
  { kernel := "k.spt".toList, wrapper := "w.spt".toList, output := none, config := some "o.json".toList
    namePrefix := none, stats := false, noAnnotate := true, verbose := false }

/-- The link writes one file beside the wrapper; with a directory as its output it fails. -/
theorem run_all_or_nothing_sample :
    let arguments := ["-k".toList, "k.spt".toList, "--wrapper=w.spt".toList, "--config".toList, "o.json".toList,
      "--no-annotate".toList]
    let ended := (run arguments : StateM FileTree Outcome).run sampleTree
    let refused := (run (arguments ++ ["-o".toList, ".".toList]) : StateM FileTree Outcome).run sampleTree
    Request.ofArguments arguments = .link sampleArguments ∧ ended.1.exitCode = 0 ∧
      (∃ o linked place, sampleArguments.Links sampleTree o linked place ∧
        ended.2.read "w.linked.spt".toList = .ok (linked.module.toText o.annotate)) ∧
      refused.1.exitCode ≠ 0 ∧ refused.2 = sampleTree := by
  intro arguments ended refused
  have request : Request.ofArguments arguments = .link sampleArguments := by decide +kernel
  have code : ended.1.exitCode = 0 := by decide +kernel
  have failing : refused.1.exitCode ≠ 0 := by decide +kernel
  obtain ⟨o, linked, place, links, -, written, -⟩ :=
    ((run_all_or_nothing arguments sampleTree).2.2 sampleArguments request).2 code
  exact ⟨request, code, ⟨o, linked, place, links, written⟩, failing,
    (run_all_or_nothing (arguments ++ ["-o".toList, ".".toList]) sampleTree).1 failing⟩

end CommandLine

end SpirvLink
