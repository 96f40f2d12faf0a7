/-
  SpirvLink.Proofs.Inlining.Unfolding — how far the calls of main unfold.

  A call in main unfolds into the calls of the body that takes its place, and those unfold
  further. `Unfolds` counts the calls of the whole unfolding, and `Met` tells which calls
  there are. A pass replaces all calls of one level (`unfolds_iff_level`), and no rename
  reaches a callee (`Ready.pass`), so the passes follow the unfolding level by level.

  Under an acyclic call graph a call that is some levels down stands on a chain of as many
  distinct functions (`Deep`), so there are at most as many levels as plain functions
  (`Deep.lt`). Main then unfolds exactly when every call met can be replaced
  (`unfolds_iff_met`).
-/

import SpirvLink.Proofs.CallGraph
import SpirvLink.Proofs.Inlining.Pass

namespace SpirvLink

/-! ## Calls as they are unfolded -/

/-- What decides the replacement of a call: the function named and the number of arguments. -/
structure CallSite where
  callee : Text
  arity : Nat
deriving DecidableEq

def Line.site? (l : Line) : Option CallSite :=
  if l.isCall then
    match l.rhsIds with
    | _ :: callee :: arguments => some ⟨callee, arguments.length⟩
    | _ => none
  else none

/-- The calls in the body of a function. -/
def Function.sites (f : Function) : List CallSite :=
  f.bodyLines.filterMap Line.site?

namespace Module

variable {p : Text} {m : Module} {s : CallSite} {f : Function}

/-- The call names one plain function, and a copy of it can be made. -/
def Replaces (p : Text) (m : Module) (s : CallSite) (f : Function) : Prop :=
  m.plainFunctions.filter (Function.isNamed s.callee) = [f] ∧ f.Copyable p s.arity

/-- The calls met when the calls of main are unfolded. -/
inductive Met (m : Module) (main : Function) : CallSite → Prop
  | main {s : CallSite} : s ∈ main.lines.filterMap Line.site? → m.Met main s
  | body {s s' : CallSite} {f : Function} : m.Met main s →
      m.plainFunctions.filter (Function.isNamed s.callee) = [f] → s' ∈ f.sites → m.Met main s'

/-- The calls unfold completely, and this many calls are replaced on the way. -/
inductive Unfolds (p : Text) (m : Module) : List CallSite → Nat → Prop
  | nil : m.Unfolds p [] 0
  | cons {s : CallSite} {ss : List CallSite} {f : Function} {below rest : Nat} : m.Replaces p s f →
      m.Unfolds p f.sites below → m.Unfolds p ss rest → m.Unfolds p (s :: ss) (1 + below + rest)

theorem unfolds_append {ss ts : List CallSite} {n : Nat} :
    m.Unfolds p (ss ++ ts) n ↔ ∃ a b, m.Unfolds p ss a ∧ m.Unfolds p ts b ∧ n = a + b := by
  induction ss generalizing n with
  | nil =>
    constructor
    · intro h
      exact ⟨0, n, .nil, h, by omega⟩
    · rintro ⟨a, b, ha, hb, rfl⟩
      cases ha
      simpa using hb
  | cons s ss ih =>
    constructor
    · intro h
      cases h with
      | cons hs hbelow hrest =>
        obtain ⟨a, b, ha, hb, rfl⟩ := ih.mp hrest
        exact ⟨_, b, .cons hs hbelow ha, hb, by omega⟩
    · rintro ⟨a, b, ha, hb, rfl⟩
      cases ha with
      | @cons _ _ f below rest hs hbelow hrest =>
        have h := Unfolds.cons hs hbelow (ih.mpr ⟨_, b, hrest, hb, rfl⟩)
        rwa [show 1 + below + rest + b = 1 + below + (rest + b) by omega]

/-- Calls unfold when each can be replaced and all the calls of the copies unfold. -/
theorem unfolds_iff_level {ss : List CallSite} {n : Nat} : m.Unfolds p ss n ↔
    ∃ fs k, List.Forall₂ (m.Replaces p) ss fs ∧ m.Unfolds p (fs.flatMap Function.sites) k ∧
      n = ss.length + k := by
  induction ss generalizing n with
  | nil =>
    constructor
    · intro h
      cases h
      exact ⟨[], 0, .nil, .nil, rfl⟩
    · rintro ⟨fs, k, hfs, hk, rfl⟩
      cases hfs
      cases hk
      exact .nil
  | cons s ss ih =>
    constructor
    · intro h
      cases h with
      | @cons _ _ f below rest hs hbelow hrest =>
        obtain ⟨fs, k, hfs, hk, rfl⟩ := ih.mp hrest
        refine ⟨f :: fs, below + k, .cons hs hfs, ?_, by rw [List.length_cons]; omega⟩
        exact unfolds_append.mpr ⟨below, k, hbelow, hk, rfl⟩
    · rintro ⟨fs, k, hfs, hk, rfl⟩
      cases hfs with
      | @cons _ f _ fs hs hfs =>
        obtain ⟨below, rest, hbelow, hrest, rfl⟩ := unfolds_append.mp hk
        have h := Unfolds.cons hs hbelow (ih.mpr ⟨fs, rest, hfs, hrest, rfl⟩)
        rwa [List.length_cons, show ss.length + 1 + (below + rest) = 1 + below + (ss.length + rest) by omega]

/-! ## Modules whose calls can be read -/

/-- A callee of a line of some function. -/
def Called (m : Module) (id : Text) : Prop :=
  ∃ f ∈ m.functions, ∃ l ∈ f.lines, ∃ s ∈ l.site?, s.callee = id

/-- Every function starts with its declaration, every call has a result, a return type and
    a callee, and no callee is a name that belongs to a function alone. -/
structure Readable (m : Module) : Prop where
  declared : ∀ f ∈ m.functions, ∃ first ∈ f.lines.head?,
    first.hasOpcode Opcode.function = true ∧ first.defined?.isSome = true
  complete : ∀ f ∈ m.functions, ∀ l ∈ f.lines, l.isCall = true →
    l.defined?.isSome = true ∧ 2 ≤ l.rhsIds.length
  fixed : ∀ f ∈ m.functions, ∀ l ∈ f.lines, ∀ s ∈ l.site?, ¬ m.IsLocal s.callee

instance (m : Module) : Decidable m.Readable :=
  decidable_of_iff (_ ∧ _ ∧ _) ⟨fun h => ⟨h.1, h.2.1, h.2.2⟩, fun h => ⟨h.declared, h.complete, h.fixed⟩⟩

end Module

section Calls

variable {l : Line} {call : Call} {g : Text → Text}

theorem site?_of_call (hl : l.isCall = true) (hc : Call.ofLine l = .ok call) :
    l.site? = some ⟨call.callee, call.arguments.length⟩ := by
  rw [Line.site?, if_pos hl, (Call.ofLine_eq_ok.mp hc).2]

theorem site?_of_not_call (hl : l.isCall = false) : l.site? = none :=
  if_neg (by simp [hl])

theorem call_renameIds (hl : l.WellSpaced) (hg : ∀ id ∈ l.ids, Text.IsPlainIdent (g id))
    (hc : Call.ofLine l = .ok call) : Call.ofLine (l.renameIds g) =
      .ok ⟨g call.result, g call.returnType, g call.callee, call.arguments.map g⟩ := by
  obtain ⟨hd, hr⟩ := Call.ofLine_eq_ok.mp hc
  refine Call.ofLine_eq_ok.mpr ⟨?_, ?_⟩
  · rw [hl.defined?_renameIds hg, hd]
    rfl
  · rw [hl.rhsIds_renameIds hg, hr]
    rfl

/-- A renaming renames the callee of a call and keeps the number of its arguments. -/
theorem site?_renameIds (hl : l.WellSpaced) (hg : ∀ id ∈ l.ids, Text.IsPlainIdent (g id)) :
    (l.renameIds g).site? = l.site?.map fun s => ⟨g s.callee, s.arity⟩ := by
  unfold Line.site?
  rw [hl.isCall_renameIds hg, hl.rhsIds_renameIds hg]
  by_cases hcall : l.isCall = true
  · rw [if_pos hcall, if_pos hcall]
    match l.rhsIds with
    | [] => rfl
    | [_] => rfl
    | _ :: callee :: arguments => simp
  · rw [if_neg hcall, if_neg hcall]
    rfl

theorem site?_renameIds_of_fixed (hl : l.WellSpaced) (hg : ∀ id ∈ l.ids, Text.IsPlainIdent (g id))
    (hcallee : ∀ s ∈ l.site?, g s.callee = s.callee) : (l.renameIds g).site? = l.site? := by
  rw [site?_renameIds hl hg]
  cases hs : l.site? with
  | none => rfl
  | some s => rw [Option.map_some, hcallee s hs]

end Calls

namespace Module.Readable

variable {m : Module} {f : Function} {l : Line} {id : Text} {copied : List Text}

theorem named (r : m.Readable) (hf : f ∈ m.functions) : ∃ name, f.name = .ok name := by
  obtain ⟨first, hfirst, ho, hd⟩ := r.declared f hf
  obtain ⟨id, hid⟩ := Option.isSome_iff_exists.mp hd
  obtain ⟨rest, hlines⟩ := List.head?_eq_some_iff.mp hfirst
  exact ⟨id, Function.name_eq_ok.mpr ⟨first, rest, hlines, hid, ho⟩⟩

theorem call (r : m.Readable) (hf : f ∈ m.functions) (hl : l ∈ f.lines) (hcall : l.isCall = true) :
    ∃ call, Call.ofLine l = .ok call := by
  obtain ⟨hd, hr⟩ := r.complete f hf l hl hcall
  obtain ⟨result, hd⟩ := Option.isSome_iff_exists.mp hd
  match hrhs : l.rhsIds with
  | [] | [_] =>
    rw [hrhs] at hr
    simp at hr
  | returnType :: callee :: arguments =>
    exact ⟨⟨result, returnType, callee, arguments⟩, Call.ofLine_eq_ok.mpr ⟨hd, hrhs⟩⟩

theorem callees (r : m.Readable) (hf : f ∈ m.functions) :
    ∃ callees, f.callees = .ok callees ∧ ∀ l ∈ f.lines, ∀ s ∈ l.site?, s.callee ∈ callees := by
  obtain ⟨calls, hcalls⟩ : ∃ calls, List.Forall₂ (fun l c => Call.ofLine l = .ok c) (f.lines.filter Line.isCall) calls :=
    exists_forall₂ fun l hl => r.call hf (List.mem_filter.mp hl).1 (List.mem_filter.mp hl).2
  refine ⟨calls.map Call.callee, bind_eq_ok.mpr ⟨calls, mapM_eq_ok.mpr hcalls, rfl⟩, fun l hl s hs => ?_⟩
  have hcall : l.isCall = true := by
    by_contra hne
    rw [site?_of_not_call (by simpa using hne)] at hs
    cases hs
  obtain ⟨c, hc, hlc⟩ := exists_of_forall₂ hcalls l (List.mem_filter.mpr ⟨hl, hcall⟩)
  rw [site?_of_call hcall hlc] at hs
  cases hs
  exact List.mem_map_of_mem hc

theorem readable (r : m.Readable) :
    ∀ f ∈ m.functions, (∃ name, f.name = .ok name) ∧ ∃ callees, f.callees = .ok callees :=
  fun _ hf => ⟨r.named hf, (r.callees hf).imp fun _ h => h.1⟩

theorem checkCallGraph_iff (r : m.Readable) (t : m.Tidy) : m.checkCallGraph = .ok () ↔ m.CallsAcyclic :=
  checkCallGraph_eq_ok_iff r.readable (t.once.names_nodup fun _ hf => r.named hf)

theorem checkCallGraph_error (r : m.Readable) {e : LinkError} (h : m.checkCallGraph = .error e) :
    ∃ chain, e = .recursiveCallChain chain :=
  checkCallGraph_eq_error r.readable h

theorem calls (r : m.Readable) (hf : f ∈ m.functions) {name : Text} (hn : f.name = .ok name) (hl : l ∈ f.lines)
    {s : CallSite} (hs : s ∈ l.site?) : m.Calls name s.callee := by
  obtain ⟨callees, hc, hmem⟩ := r.callees hf
  exact ⟨f, hf, hn, callees, hc, hmem l hl s hs⟩

theorem not_owned (r : m.Readable) (hf : f ∈ m.plainFunctions) (h : m.Called id) : id ∉ f.owned := by
  obtain ⟨g, hg, l, hl, s, hs, rfl⟩ := h
  exact fun ho => r.fixed g hg l hl s hs ⟨_, mem_plainFunctions.mp hf, ho⟩

/-- No copy brings in the name of a callee. -/
theorem not_upcoming (t : m.Tidy) (r : m.Readable) (h : m.Called id) : ¬ m.Upcoming copied id := by
  intro hu
  rcases hu.owned_or with ⟨f, hf, ho⟩ | hs
  · exact r.not_owned hf h ho
  · obtain ⟨g, hg, l, hl, s, hsite, rfl⟩ := h
    have hline := mem_lines_of_function hg hl
    have hrhs : s.callee ∈ l.rhsIds := by
      unfold Line.site? at hsite
      split at hsite
      · split at hsite
        · next hr =>
          cases hsite
          rw [hr]
          exact List.mem_cons_of_mem _ (List.mem_cons_self ..)
        · cases hsite
      · cases hsite
    have := t.unsuffixed l hline _ ((t.spaced l hline).mem_ids_of_rhs hrhs)
    rw [hs] at this
    cases this

theorem called_of_site (hf : f ∈ m.plainFunctions) {s : CallSite} (hs : s ∈ f.sites) : m.Called s.callee := by
  obtain ⟨l, hl, hls⟩ := List.mem_filterMap.mp hs
  exact ⟨f, plain_mem_functions hf, l, Function.bodyLines_subset hl, s, hls, rfl⟩

end Module.Readable

/-! ## One level of the unfolding -/

/-- Main is sound, its calls can be read, and no callee is the result of a call. -/
structure Ready (m : Module) (copied : List Text) (ls : List Line) : Prop extends Sound m copied ls where
  calls : ∀ l ∈ ls, l.isCall = true →
    ∃ call, Call.ofLine l = .ok call ∧ m.Called call.callee ∧ ¬ m.Called call.result

section Level

variable {p : Text} {m : Module} {copied copied' : List Text} {ls : List Line} {e : Expansion}

theorem replaces_iff {s : CallSite} {f : Function} : m.Replaces p s f ↔
    Inlining.resolve m s.callee = .ok f ∧ f.Copyable p s.arity := by
  rw [Module.Replaces, Module.resolve_eq_ok]

theorem Ready.mono (r : Ready m copied ls) (hle : ∀ name, copied.count name ≤ copied'.count name) :
    Ready m copied' ls :=
  ⟨r.toSound.mono hle, r.calls⟩

/-- Main expands when each of its calls can be replaced. -/
theorem exists_expands_of_replaces [KeyOrder] : ∀ {ls : List Line} (copied : List Text) {fs : List Function},
    (∀ l ∈ ls, l.isCall = true → ∃ call, Call.ofLine l = .ok call) →
    List.Forall₂ (m.Replaces p) (ls.filterMap Line.site?) fs → ∃ copied' e, Expands p m copied ls copied' e
  | [], copied, _, _, _ => ⟨copied, ⟨[], []⟩, .nil copied⟩
  | l :: ls, copied, fs, hcalls, hfs => by
    have hrest := fun k hk => hcalls k (List.mem_cons_of_mem l hk)
    cases hcall : l.isCall with
    | false =>
      rw [List.filterMap_cons_none (site?_of_not_call hcall)] at hfs
      obtain ⟨copied', e, he⟩ := exists_expands_of_replaces copied hrest hfs
      exact ⟨copied', _, .keep hcall he⟩
    | true =>
      obtain ⟨call, hc⟩ := hcalls l (List.mem_cons_self ..) hcall
      rw [List.filterMap_cons_some (site?_of_call hcall hc)] at hfs
      cases hfs with
      | cons hf hfs =>
        obtain ⟨hres, hcopy⟩ := replaces_iff.mp hf
        obtain ⟨copied', e, he⟩ := exists_expands_of_replaces (call.callee :: copied) hrest hfs
        exact ⟨copied', _, .copy hcall hc hres hcopy he⟩

namespace Expands

variable [KeyOrder]

theorem copyLines_sites (t : m.Tidy) (r : m.Readable) {f : Function} (hf : f ∈ m.plainFunctions) (copy : Nat) :
    (f.copyLines copy).filterMap Line.site? = f.sites := by
  rw [t.copyLines hf, List.filterMap_map, Function.sites]
  refine List.filterMap_congr fun l hl => ?_
  have spaced := t.spaced_plain hf l (Function.bodyLines_subset hl)
  refine site?_renameIds_of_fixed spaced (Function.plain_nameIn spaced copy) fun s hs => ?_
  refine Function.nameIn_of_not_mem (r.not_owned hf (Module.Readable.called_of_site hf ?_)) copy
  exact List.mem_filterMap.mpr ⟨l, hl, hs⟩

/-- The calls of an expansion are those of the bodies that take the place of main's calls. -/
theorem sites (t : m.Tidy) (r : m.Readable) (h : Expands p m copied ls copied' e) :
    ∃ fs, List.Forall₂ (m.Replaces p) (ls.filterMap Line.site?) fs ∧
      e.lines.filterMap Line.site? = fs.flatMap Function.sites ∧ ∀ f ∈ fs, f ∈ m.plainFunctions := by
  induction h with
  | nil copied => exact ⟨[], .nil, rfl, fun f hf => (by cases hf)⟩
  | keep hcall _ ih =>
    obtain ⟨fs, hfs, hsites, hplain⟩ := ih
    refine ⟨fs, ?_, ?_, hplain⟩
    · rwa [List.filterMap_cons_none (site?_of_not_call hcall)]
    · rwa [List.filterMap_cons_none (site?_of_not_call hcall)]
  | @copy l ls copied copied' e call f hcall hline hres hcopy _ ih =>
    obtain ⟨fs, hfs, hsites, hplain⟩ := ih
    have hf := (Module.plain_of_resolve hres).1
    refine ⟨f :: fs, ?_, ?_, List.forall_mem_cons.mpr ⟨hf, hplain⟩⟩
    · rw [List.filterMap_cons_some (site?_of_call hcall hline)]
      exact .cons (replaces_iff.mpr ⟨hres, hcopy⟩) hfs
    · rw [List.filterMap_append, copyLines_sites t r hf, hsites]
      rfl

/-- No rename of a pass reaches a callee. -/
theorem composed_called (t : m.Tidy) (r : m.Readable) (ready : Ready m copied ls)
    (h : Expands p m copied ls copied' e) {id : Text} (hid : m.Called id) :
    Rename.composed e.renames id = id := by
  refine Rename.composed_of_not_mem fun hold => ?_
  obtain ⟨rename, hr, rfl⟩ := List.mem_map.mp hold
  rcases h.olds t hr with ⟨l, hl, hres⟩ | ⟨hm, -⟩
  · have hcall := (Line.result?_eq_some hres).1
    obtain ⟨call, hc, -, hne⟩ := ready.calls l hl hcall
    rw [Line.result?_of_call hcall hc, Option.some.injEq] at hres
    exact hne (hres ▸ hid)
  · exact r.not_upcoming t hid hm.1

theorem renamed_sites (t : m.Tidy) (r : m.Readable) (ready : Ready m copied ls)
    (h : Expands p m copied ls copied' e) : e.renamed.filterMap Line.site? = e.lines.filterMap Line.site? := by
  obtain ⟨fs, -, hsites, hplain⟩ := h.sites t r
  rw [Expansion.renamed, List.filterMap_map]
  refine List.filterMap_congr fun l hl => ?_
  refine site?_renameIds_of_fixed (h.spaced t ready.spaced l hl) (h.plain_composed t ready.spaced hl) fun s hs => ?_
  have hmem : s ∈ fs.flatMap Function.sites := hsites ▸ List.mem_filterMap.mpr ⟨l, hl, hs⟩
  obtain ⟨f, hf, hs⟩ := List.mem_flatMap.mp hmem
  exact h.composed_called t r ready (Module.Readable.called_of_site (hplain f hf) hs)

/-- A call of an expansion can be read: it has the callee that it has in its function, and
    the result is made by a copy. -/
theorem called (t : m.Tidy) (r : m.Readable) (h : Expands p m copied ls copied' e) {l : Line} (hl : l ∈ e.lines)
    (hcall : l.isCall = true) :
    ∃ call, Call.ofLine l = .ok call ∧ m.Called call.callee ∧ m.Made copied copied' call.result := by
  obtain ⟨f, hf, copy, k, hk, hkl, hmade⟩ := h.call_mem t hl hcall
  have spaced := t.spaced_plain hf k (Function.bodyLines_subset hk)
  have plain := Function.plain_nameIn (f := f) spaced copy
  have hkcall : k.isCall = true := by rwa [← hkl, spaced.isCall_renameIds plain] at hcall
  obtain ⟨call, hc⟩ := r.call (Module.plain_mem_functions hf) (Function.bodyLines_subset hk) hkcall
  have hcalled : m.Called call.callee := Module.Readable.called_of_site hf
    (List.mem_filterMap.mpr ⟨k, hk, site?_of_call hkcall hc⟩)
  have hlc := call_renameIds spaced plain hc
  rw [hkl, Function.nameIn_of_not_mem (r.not_owned hf hcalled)] at hlc
  exact ⟨_, hlc, hcalled, hmade _ (Call.ofLine_eq_ok.mp hlc).1⟩

end Expands

theorem Ready.pass [KeyOrder] (t : m.Tidy) (r : m.Readable) (ready : Ready m copied ls)
    (h : Expands p m copied ls copied' e) : Ready m copied' e.renamed := by
  refine ⟨ready.toSound.pass t h, fun l hl hcall => ?_⟩
  obtain ⟨k, hk, rfl⟩ := List.mem_map.mp hl
  have hkspaced := h.spaced t ready.spaced k hk
  have hkplain := h.plain_composed t ready.spaced hk
  rw [hkspaced.isCall_renameIds hkplain] at hcall
  obtain ⟨call, hc, hcalled, hmade⟩ := h.called t r hk hcall
  have hd : k.defined? = some call.result := (Call.ofLine_eq_ok.mp hc).1
  refine ⟨_, call_renameIds hkspaced hkplain hc, ?_, ?_⟩
  · rw [h.composed_called t r ready hcalled]
    exact hcalled
  · show ¬ m.Called (Rename.composed e.renames call.result)
    rw [h.composed_defined t ready.toSound (List.mem_filterMap.mpr ⟨k, hk, hd⟩)]
    exact fun hcalled => r.not_upcoming t hcalled hmade.1

/-- Main is ready before the first pass. -/
theorem Ready.start (t : m.Tidy) (r : m.Readable) {main : Function} (hmain : m.main? = some main) :
    Ready m [] main.lines := by
  have block := Module.main_mem hmain
  have hf : main ∈ m.functions := Module.mem_functions block rfl
  refine ⟨Sound.start t hmain, fun l hl hcall => ?_⟩
  obtain ⟨call, hc⟩ := r.call hf hl hcall
  refine ⟨call, hc, ⟨main, hf, l, hl, _, site?_of_call hcall hc, rfl⟩, ?_⟩
  obtain ⟨name, hname⟩ := r.named hf
  rintro ⟨g, hg, k, hk, s, hs, heq⟩
  refine r.fixed g hg k hk s hs ⟨_, block, ?_⟩
  show s.callee ∈ main.lines.tail.filterMap Line.defined?
  rw [heq]
  exact List.mem_filterMap.mpr ⟨l, Function.mem_tail_of_isCall hname hl hcall, (Call.ofLine_eq_ok.mp hc).1⟩

end Level

/-! ## How deep a call stands -/

namespace Module

variable {p : Text} {m : Module} {f : Function} {s s' : CallSite} {depth : Nat}

def plainNames (m : Module) : List Text :=
  m.plainFunctions.filterMap fun f => f.name.toOption

theorem mem_plainNames {name : Text} (hf : f ∈ m.plainFunctions) (hn : f.name = .ok name) :
    name ∈ m.plainNames :=
  List.mem_filterMap.mpr ⟨f, hf, by rw [hn]; rfl⟩

/-- The call stands below this many functions, each of which leads to its callee. -/
def Deep (m : Module) (depth : Nat) (s : CallSite) : Prop :=
  ∃ path : List Text, path.length = depth ∧ path.Nodup ∧ path ⊆ m.plainNames ∧
    ∀ name ∈ path, Relation.TransGen m.Calls name s.callee

theorem deep_zero (s : CallSite) : m.Deep 0 s :=
  ⟨[], rfl, List.nodup_nil, List.nil_subset _, fun _ h => (by cases h)⟩

theorem Replaces.plain (h : m.Replaces p s f) : f ∈ m.plainFunctions ∧ f.name = .ok s.callee :=
  plain_of_resolve (replaces_iff.mp h).1

/-- The callee of a call that can be replaced is one more function on its path. -/
theorem Deep.callee (acyclic : m.CallsAcyclic) (h : m.Deep depth s) (hr : m.Replaces p s f) :
    ∃ path : List Text, path.length = depth + 1 ∧ path.Nodup ∧ path ⊆ m.plainNames ∧
      ∀ name ∈ path, name = s.callee ∨ Relation.TransGen m.Calls name s.callee := by
  obtain ⟨path, hlen, hnodup, hsub, hcalls⟩ := h
  refine ⟨s.callee :: path, by rw [List.length_cons, hlen], List.nodup_cons.mpr ⟨fun hmem => ?_, hnodup⟩,
    List.cons_subset.mpr ⟨mem_plainNames hr.plain.1 hr.plain.2, hsub⟩, fun name hname => ?_⟩
  · exact acyclic s.callee (hcalls _ hmem)
  · exact (List.mem_cons.mp hname).imp_right (hcalls name)

theorem Deep.lt (acyclic : m.CallsAcyclic) (h : m.Deep depth s) (hr : m.Replaces p s f) :
    depth < m.plainFunctions.length := by
  obtain ⟨path, hlen, hnodup, hsub, -⟩ := h.callee acyclic hr
  have bound : path.length ≤ m.plainNames.length := (hnodup.subperm hsub).length_le
  have names : m.plainNames.length ≤ m.plainFunctions.length := List.length_filterMap_le ..
  omega

theorem Deep.succ (r : m.Readable) (acyclic : m.CallsAcyclic) (h : m.Deep depth s) (hr : m.Replaces p s f)
    (hs : s' ∈ f.sites) : m.Deep (depth + 1) s' := by
  obtain ⟨path, hlen, hnodup, hsub, hcalls⟩ := h.callee acyclic hr
  obtain ⟨l, hl, hls⟩ := List.mem_filterMap.mp hs
  have edge : m.Calls s.callee s'.callee :=
    r.calls (plain_mem_functions hr.plain.1) hr.plain.2 (Function.bodyLines_subset hl) hls
  refine ⟨path, hlen, hnodup, hsub, fun name hname => ?_⟩
  rcases hcalls name hname with rfl | hcall
  · exact .single edge
  · exact hcall.tail edge

/-! ## The calls met -/

theorem Unfolds.mem {ss : List CallSite} {n : Nat} (h : m.Unfolds p ss n) (hs : s ∈ ss) :
    ∃ f below, m.Replaces p s f ∧ m.Unfolds p f.sites below := by
  induction h with
  | nil => cases hs
  | cons hr hbelow _ _ ih =>
    rcases List.mem_cons.mp hs with rfl | hs
    · exact ⟨_, _, hr, hbelow⟩
    · exact ih hs

/-- Under an acyclic call graph the calls of main unfold when each call met can be replaced. -/
theorem unfolds_iff_met (r : m.Readable) (acyclic : m.CallsAcyclic) {main : Function} :
    (∃ n, m.Unfolds p (main.lines.filterMap Line.site?) n) ↔ ∀ s, m.Met main s → ∃ f, m.Replaces p s f := by
  constructor
  · rintro ⟨n, h⟩ s hs
    have unfolds : ∃ f below, m.Replaces p s f ∧ m.Unfolds p f.sites below := by
      induction hs with
      | main hs => exact h.mem hs
      | body _ hf hs' ih =>
        obtain ⟨g, below, hr, hbelow⟩ := ih
        cases hf.symm.trans hr.1
        exact hbelow.mem hs'
    obtain ⟨f, -, hr, -⟩ := unfolds
    exact ⟨f, hr⟩
  · intro hmet
    -- The gap to the greatest depth shrinks from each call to those of its body.
    have unfolds : ∀ (gap depth : Nat), m.plainFunctions.length ≤ depth + gap → ∀ ss : List CallSite,
        (∀ s ∈ ss, m.Met main s ∧ m.Deep depth s) → ∃ n, m.Unfolds p ss n := by
      intro gap
      induction gap with
      | zero =>
        intro depth hgap ss hss
        cases ss with
        | nil => exact ⟨0, .nil⟩
        | cons s ss =>
          obtain ⟨hs, hdeep⟩ := hss s (List.mem_cons_self ..)
          obtain ⟨f, hr⟩ := hmet s hs
          have := hdeep.lt acyclic hr
          omega
      | succ gap ih =>
        intro depth hgap ss hss
        induction ss with
        | nil => exact ⟨0, .nil⟩
        | cons s ss ihss =>
          obtain ⟨hs, hdeep⟩ := hss s (List.mem_cons_self ..)
          obtain ⟨f, hr⟩ := hmet s hs
          obtain ⟨below, hbelow⟩ := ih (depth + 1) (by omega) f.sites fun s' hs' =>
            ⟨.body hs hr.1 hs', hdeep.succ r acyclic hr hs'⟩
          obtain ⟨rest, hrest⟩ := ihss fun s' hs' => hss s' (List.mem_cons_of_mem s hs')
          exact ⟨_, .cons hr hbelow hrest⟩
    exact unfolds _ 0 (Nat.le_add_left ..) _ fun s hs => ⟨.main hs, deep_zero s⟩

end Module

end SpirvLink
