/-
  SpirvLink.Proofs.Link.KernelList — the list of kernels is read before anything else fails.

  The wrapper's header lists the kernels in a string. The names are taken off the line by the
  scanner for identifiers, which ends a name at a blank and at the quotation mark that closes
  the string, so they come back whole and in order however they are spaced
  (`rhsIds_listing`), from the first line that defines the list (`kernelNames?_of_listing`).

  A link asks for the list before it looks at another block of either module. So a list of no
  name or of several ends it with the number of names, whatever else there is to refuse in
  the wrapper or in the kernel (`kernelList_gates`).
-/

import Mathlib.Data.List.Basic
import SpirvLink.Link.Basic
import SpirvLink.Proofs.Line.Printing

namespace SpirvLink

open Text

variable {id content : Text} {ks : List Text} {before after : List Line} {header : Block}

namespace Line

/-- The line that lists names under an identifier, in a string with this content. -/
def listing (id content : Text) : Line :=
  ⟨id ++ " = OpString \"".toList ++ content ++ ['"']⟩

theorem listing_eq_ofParts (id content : Text) :
    listing id content = ofParts (some id) Opcode.string ['"' :: content ++ ['"']] := by
  rw [listing, ofParts, List.append_assoc, List.append_assoc, List.append_assoc]
  rfl

theorem halves?_listing (hid : IsName id) (content : Text) :
    (listing id content).halves? = some (id ++ [' '], ' ' :: unwords [Opcode.string, '"' :: content ++ ['"']]) := by
  rw [listing_eq_ofParts]
  exact halves?_ofParts_some hid Opcode.string _

theorem defined?_listing (hid : IsName id) (content : Text) : (listing id content).defined? = some id := by
  rw [listing_eq_ofParts]
  exact defined?_ofParts_some hid Opcode.string _

theorem hasOpcode_listing (hid : IsName id) (content : Text) :
    (listing id content).hasOpcode Opcode.string = true := by
  have cut := halves?_listing hid content
  have word : ∀ c ∈ Opcode.string, isBlank c = false := forall_of_all (by decide)
  rw [hasOpcode, opcode?, if_pos (hasCode_of_halves (by rw [cut]; rfl)), instruction_of_halves cut, words_trim,
    words_blank isBlank_space, unwords, words_append_blank word isBlank_space]
  rfl

theorem rhsIds_listing (hid : IsName id) (content : Text) :
    (listing id content).rhsIds = identifiers content := by
  have space : identifiers (' ' :: unwords [Opcode.string, '"' :: content ++ ['"']]) =
      identifiers (unwords [Opcode.string, '"' :: content ++ ['"']]) :=
    identifiers_blank isBlank_space [] _
  have string : identifiers ('"' :: content ++ ['"']) = identifiers content := by
    have opened := identifiers_ender (c := '"') (by decide) [] (content ++ ['"'])
    have closed := identifiers_ender (c := '"') (by decide) content []
    rw [List.cons_append, ← List.nil_append ('"' :: (content ++ ['"'])), opened, closed]
    exact List.append_nil _
  rw [rhsIds, rhs?, halves?_listing hid, Option.map_some, Option.map_some, Option.getD_some, identifiers_trim, space,
    identifiers_unwords, List.flatMap_cons, List.flatMap_cons, string]
  simp [identifiers_of_no_sigil (s := Opcode.string) (by decide)]

end Line

/-- A text whose words are identifiers has these and no others. -/
theorem Text.identifiers_of_words (names : words content = ks) (idents : ∀ k ∈ ks, IsIdent k) :
    identifiers content = ks := by
  rw [identifiers_eq_flatMap_words, names]
  exact (List.flatMap_congr fun k hk => identifiers_of_isIdent (idents k hk)).trans (List.flatMap_singleton' ks)

/-- The first string that defines the list gives the names. -/
theorem Block.kernelNames?_of_listing (hid : IsName id) (lines : header.lines = before ++ .listing id content :: after)
    (first : ∀ l ∈ before, l.hasOpcode Opcode.string = true → l.defined? ≠ some id) :
    header.kernelNames? id = some (identifiers content) := by
  have none : before.find? (fun l => l.hasOpcode Opcode.string && l.defined? == some id) = none :=
    List.find?_eq_none.mpr fun l hl => by simpa using first l hl
  rw [kernelNames?, lines, List.find?_append, none, Option.none_or, List.find?_cons_of_pos, Option.map_some,
    Line.rhsIds_listing hid]
  simp [Line.hasOpcode_listing hid, Line.defined?_listing hid]

/-- If the first string in the header that defines the list holds these names between blanks,
    then these are the kernels, in order. One kernel is taken up with its prefixed name; with
    no kernel or several ones, every link with valid options and a wrapper of this header
    fails for their number and tells nothing before. -/
theorem kernelList_gates [KeyOrder] (hid : IsName id) (lines : header.lines = before ++ .listing id content :: after)
    (first : ∀ l ∈ before, l.hasOpcode Opcode.string = true → l.defined? ≠ some id)
    (names : words content = ks) (idents : ∀ k ∈ ks, IsIdent k) :
    header.kernelNames? id = some ks ∧
    ∀ (o : Options) (wrapper : Module), o.kernelListId = id → wrapper.header? = some header →
      (∀ k, ks = [k] → Link.resolveKernel o wrapper = .ok (o.prefixed k)) ∧
      (o.validate = .ok () → ks.length ≠ 1 → ∀ kernel,
        linkModules o kernel wrapper = Logged.fail (.unsupportedKernelCount ks.length)) := by
  have listed : header.kernelNames? id = some ks := by
    rw [Block.kernelNames?_of_listing hid lines first, identifiers_of_words names idents]
  refine ⟨listed, ?_⟩
  rintro o wrapper rfl hheader
  constructor
  · rintro k rfl
    rw [Link.resolveKernel, hheader]
    dsimp only
    rw [listed]
  · intro valid count kernel
    have refused : Link.resolveKernel o wrapper = .error (.unsupportedKernelCount ks.length) := by
      rw [Link.resolveKernel, hheader]
      dsimp only
      rw [listed]
      match ks, count with
      | [], _ => rfl
      | _ :: _ :: _, _ => rfl
    rw [linkModules, valid, refused]
    rfl

/-- A header with two lists of kernels under the standard identifier. -/
def Link.twiceListingHeader : Block :=
  ⟨.header, ["; kernels", "%source = OpString \"%none \"", "%RS_KERNELS = OpString \"%blur  %invert%2 %sharpen \"",
    "%RS_KERNELS = OpString \"%blur \""].map fun s => ⟨s.toList⟩⟩

attribute [local instance] KeyOrder.listed

/-- The first list counts, and neither the empty kernel module nor the wrapper without a main
    is looked at. -/
theorem kernelList_gates_several :
    Link.twiceListingHeader.kernelNames? "%RS_KERNELS".toList =
      some ["%blur".toList, "%invert%2".toList, "%sharpen".toList] ∧
    linkModules .standard ⟨[]⟩ ⟨[Link.twiceListingHeader]⟩ = Logged.fail (.unsupportedKernelCount 3) := by
  have hid : IsName "%RS_KERNELS".toList := ⟨by decide, forall_of_all (by decide), by decide⟩
  have lines : Link.twiceListingHeader.lines = Link.twiceListingHeader.lines.take 2 ++
      .listing "%RS_KERNELS".toList "%blur  %invert%2 %sharpen ".toList :: Link.twiceListingHeader.lines.drop 3 := by
    decide
  have first : ∀ l ∈ Link.twiceListingHeader.lines.take 2, l.hasOpcode Opcode.string = true →
      l.defined? ≠ some "%RS_KERNELS".toList := by
    decide +kernel
  have names : words "%blur  %invert%2 %sharpen ".toList =
      ["%blur".toList, "%invert%2".toList, "%sharpen".toList] := by
    decide +kernel
  obtain ⟨listed, gates⟩ := kernelList_gates hid lines first names (by decide)
  exact ⟨listed, (gates .standard ⟨[Link.twiceListingHeader]⟩ rfl rfl).2 (by decide) (by decide) ⟨[]⟩⟩

end SpirvLink
