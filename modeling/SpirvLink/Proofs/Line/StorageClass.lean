/-
  SpirvLink.Proofs.Line.StorageClass — what another storage class does to a line.

  The class is a word after a space, or it stands between underscores. If both classes can
  stand inside an identifier (`IsClass`), each word is moved by itself (`words_inText`), the
  first equals sign stays where it is (`inText_cut`), and a line defines what it defined and
  names what it named, with the class moved inside the names (`defined?_moveStorageClass`,
  `ids_moveStorageClass`).
-/

import SpirvLink.Lowering.StorageClass
import SpirvLink.Proofs.Line.Reading
import SpirvLink.Proofs.Text.Lines
import SpirvLink.Proofs.Text.Replacing

namespace SpirvLink

open Text

/-- A storage class is a text that can stand inside an identifier. -/
structure Text.IsClass (w : Text) : Prop where
  nonempty : w ≠ []
  inner : Inner w

instance (w : Text) : Decidable (Text.IsClass w) :=
  decidable_of_iff (w ≠ [] ∧ Inner w) ⟨fun h => ⟨h.1, h.2⟩, fun h => ⟨h.nonempty, h.inner⟩⟩

theorem Text.IsClass.not_blank {w : Text} (h : IsClass w) : ∀ c ∈ w, isBlank c = false := by
  intro c hc
  have := (h.inner c hc).1
  simp only [endsIdent, Bool.or_eq_false_iff] at this
  exact this.1

theorem Text.IsClass.isWord {w : Text} (h : IsClass w) : IsWord w :=
  ⟨h.nonempty, h.not_blank⟩

/-- A class starts with nothing that starts, ends or assigns an identifier. -/
theorem Text.IsClass.head?_ne {w : Text} {c : Char} (h : IsClass w) (hc : endsIdent c = true ∨ c = sigil ∨ c = '=') :
    w.head? ≠ some c :=
  fun he => h.inner.not_mem hc (List.mem_of_mem_head? he)

namespace Storage

variable {old new w w' s t : Text} {c : Char}

/-- The text with the class moved where it stands between underscores. -/
def inName (old new s : Text) : Text :=
  replaceAll (Line.storageInName old) (Line.storageInName new) s

def inText (old new s : Text) : Text :=
  inName old new (replaceAll (Line.storageWord old) (Line.storageWord new) s)

/-- What becomes of a word. -/
def Moved (old new w w' : Text) : Prop :=
  ∃ v, StartsAnew old new w v ∧ w' = inName old new v

theorem storageInName_ne_nil (w : Text) : Line.storageInName w ≠ [] :=
  List.cons_ne_nil _ _

theorem inner_storageInName (h : Inner w) : Inner (Line.storageInName w) := by
  have underscore : endsIdent '_' = false ∧ '_' ≠ sigil ∧ '_' ≠ '=' := by decide
  intro c hc
  rcases List.mem_append.mp hc with hc | hc
  · rcases List.mem_cons.mp hc with rfl | hc
    · exact underscore
    · exact h c hc
  · exact List.mem_singleton.mp hc ▸ underscore

theorem replaced_inName (old new s : Text) :
    Replaced (Line.storageInName old) (Line.storageInName new) s (inName old new s) :=
  replaced_replaceAll (storageInName_ne_nil old) s

theorem replaced_inText (old new s : Text) : ∃ t, Replaced (Line.storageWord old) (Line.storageWord new) s t ∧
    Replaced (Line.storageInName old) (Line.storageInName new) t (inText old new s) :=
  ⟨_, replaced_replaceAll (List.cons_ne_nil _ _) s, replaced_inName old new _⟩

/-! ## Words and equals signs -/

theorem words_inText (ho : IsClass old) (hn : IsClass new) (s : Text) :
    List.Forall₂ (Moved old new) (words s) (words (inText old new s)) := by
  have name : ∀ {w : Text}, Inner w → ∀ c ∈ Line.storageInName w, isBlank c = false := fun hw =>
    IsClass.not_blank ⟨storageInName_ne_nil _, inner_storageInName hw⟩
  rw [inText, inName, words_replaceAll (storageInName_ne_nil old) (name ho.inner) ⟨storageInName_ne_nil new, name hn.inner⟩,
    List.forall₂_map_right_iff]
  exact (words_replaceAll_space ho.isWord hn.isWord s).imp fun w v h => ⟨v, h, rfl⟩

/-- Both replacements go on separately on both sides of an equals sign. -/
theorem inText_cut (ho : IsClass old) (s t : Text) :
    inText old new (s ++ '=' :: t) = inText old new s ++ '=' :: inText old new t := by
  have word : '=' ∉ ' ' :: old := by
    rintro (_ | ⟨_, hm⟩)
    exact ho.inner.not_mem (.inr (.inr rfl)) hm
  have name : '=' ∉ Line.storageInName old := (inner_storageInName ho.inner).not_mem (.inr (.inr rfl))
  rw [inText, Line.storageWord, replaceAll_cut (List.cons_ne_nil _ _) word, inName, replaceAll_cut (storageInName_ne_nil old) name]
  rfl

theorem Moved.head? (h : Moved old new w w') (ho : IsClass old) (hn : IsClass new) (hco : old.head? ≠ some c)
    (hcn : new.head? ≠ some c) : w'.head? = some c ↔ w.head? = some c := by
  obtain ⟨v, hv, rfl⟩ := h
  rw [(replaced_inName old new v).head? (d := '_') rfl rfl]
  have start : ∀ {u : Text} (r : Text), u ≠ [] → (u ++ r).head? = u.head? := by
    intro u r hu
    rw [List.head?_append_of_ne_nil _ hu]
  rcases hv with rfl | ⟨r, rfl, rfl⟩
  · exact Iff.rfl
  · rw [start r hn.nonempty, start r ho.nonempty]
    exact iff_of_false hcn hco

theorem equals_of_inText (hn : IsClass new) (h : '=' ∈ inText old new s) : '=' ∈ s := by
  obtain ⟨t, ht, hs⟩ := replaced_inText old new s
  refine (ht.mem ((hs.mem h).resolve_right ((inner_storageInName hn.inner).not_mem (.inr (.inr rfl))))).resolve_right ?_
  rintro (_ | ⟨_, hm⟩)
  exact hn.inner.not_mem (.inr (.inr rfl)) hm

theorem Moved.equals (h : Moved old new w w') (hn : IsClass new) (he : '=' ∈ w') : '=' ∈ w := by
  obtain ⟨v, hv, rfl⟩ := h
  have hv' := ((replaced_inName old new v).mem he).resolve_right ((inner_storageInName hn.inner).not_mem (.inr (.inr rfl)))
  rcases hv with rfl | ⟨r, rfl, rfl⟩
  · exact hv'
  · exact List.mem_append_right _ ((List.mem_append.mp hv').resolve_left (hn.inner.not_mem (.inr (.inr rfl))))

theorem definingWords_of_moved (ho : IsClass old) (hn : IsClass new) {ws ws' : List Text}
    (h : List.Forall₂ (Moved old new) ws ws') (hd : DefiningWords ws') : DefiningWords ws := by
  cases h with
  | nil => exact hd
  | cons hw rest =>
    have first : ∀ {v v' : Text} {c : Char}, Moved old new v v' → c = sigil ∨ c = '=' → (v'.head? = some c ↔ v.head? = some c) :=
      fun hv hc => hv.head? ho hn (IsClass.head?_ne ho (.inr hc)) (IsClass.head?_ne hn (.inr hc))
    refine ⟨(first hw (.inl rfl)).mp hd.1, hd.2.imp (hw.equals hn) ?_⟩
    rintro ⟨v, hv, hvh⟩
    cases rest with
    | nil => cases hv
    | cons hv' _ =>
      cases hv
      exact ⟨_, rfl, (first hv' (.inr rfl)).mp hvh⟩

/-- A class that is moved leaves no blank at the ends. -/
theorem trim_inText (hn : IsClass new) (hs : trim s = s) : trim (inText old new s) = inText old new s := by
  obtain ⟨first, last⟩ := trim_eq_self_iff.mp hs
  obtain ⟨t, ht, htt⟩ := replaced_inText old new s
  refine trim_of_ends ?_ ?_
  · rw [htt.head? (d := '_') rfl rfl]
    cases ht with
    | nil => exact first
    | found _ => exact absurd (first ' ' rfl) (by decide)
    | kept _ => exact first
  · have ends : ∀ {u : Text}, u ≠ [] → (∀ c ∈ u, isBlank c = false) → u.getLast?.any isBlank = false := by
      intro u hu hb
      rw [List.getLast?_eq_some_getLast hu]
      exact hb _ (List.getLast_mem hu)
    have word : (Line.storageWord new).getLast?.any isBlank = false := by
      rw [Line.storageWord, List.getLast?_cons_of_ne_nil hn.nonempty]
      exact ends hn.nonempty hn.not_blank
    exact htt.getLast? (storageInName_ne_nil new)
      (ends (storageInName_ne_nil new) (IsClass.not_blank ⟨storageInName_ne_nil _, inner_storageInName hn.inner⟩))
      (ht.getLast? (List.cons_ne_nil _ _) word last)

end Storage

/-! ## Lines -/

namespace Line

open Storage

variable {old new : Text} {l : Line} {before after : Text}

theorem text_moveStorageClass (old new : Text) (l : Line) : (l.moveStorageClass old new).text = inText old new l.text := rfl

theorem halves?_moveStorageClass_none (ho : IsClass old) (hn : IsClass new) (h : l.halves? = none) :
    (l.moveStorageClass old new).halves? = none := by
  rw [halves?_eq_none] at h ⊢
  exact fun hd => h (definingWords_of_moved ho hn (words_inText ho hn l.text) hd)

theorem halves?_moveStorageClass_some (ho : IsClass old) (hn : IsClass new) (h : l.halves? = some (before, after)) :
    (l.moveStorageClass old new).halves? = some (inText old new before, inText old new after) := by
  obtain ⟨hcut, hcan⟩ := halves?_eq_some.mp h
  obtain ⟨htext, hequals⟩ := cutAt_eq_some.mp hcut
  obtain ⟨u, hu, hh⟩ := canDefine_trim_iff.mp hcan
  refine halves?_eq_some.mpr ⟨cutAt_eq_some.mpr ⟨?_, fun hm => hequals (equals_of_inText hn hm)⟩, ?_⟩
  · rw [text_moveStorageClass, htext, inText_cut ho]
  · have words := words_inText ho hn before
    rw [hu] at words
    obtain ⟨u', ws', hmoved, hrest, hws⟩ := List.forall₂_cons_left_iff.mp words
    rw [List.forall₂_nil_left_iff.mp hrest] at hws
    refine canDefine_trim_iff.mpr ⟨u', hws, (hmoved.head? ho hn ?_ ?_).mpr hh⟩
    · exact IsClass.head?_ne ho (.inr (.inl rfl))
    · exact IsClass.head?_ne hn (.inr (.inl rfl))

/-- The identifiers of a moved line are those of the line, with the class moved in each. -/
theorem ids_moveStorageClass (ho : IsClass old) (hn : IsClass new) (l : Line) :
    (l.moveStorageClass old new).ids = l.ids.map (inName old new) := by
  have quiet : ∀ {w : Text}, IsClass w → sigil ∉ w := fun hw => hw.inner.not_mem (.inr (.inl rfl))
  rw [ids, text_moveStorageClass, inText, inName, identifiers_replaceAll (storageInName_ne_nil old)
    (inner_storageInName ho.inner) (inner_storageInName hn.inner), ids]
  exact congrArg _ (identifiers_replaceAll_space ho.isWord hn.isWord (quiet ho) (quiet hn) l.text)

/-- A moved line defines what the line defines, with the class moved in it. -/
theorem defined?_moveStorageClass (ho : IsClass old) (hn : IsClass new) (l : Line) :
    (l.moveStorageClass old new).defined? = l.defined?.map (inName old new) := by
  rw [defined?, defined?]
  cases hs : l.halves? with
  | none => rw [halves?_moveStorageClass_none ho hn hs]; rfl
  | some h =>
    rw [halves?_moveStorageClass_some ho hn hs]
    obtain ⟨u, hu, hh⟩ := canDefine_trim_iff.mp (halves?_eq_some.mp hs).2
    have words := words_inText ho hn h.1
    rw [hu] at words
    obtain ⟨_, ws', ⟨v, hv, rfl⟩, hrest, hws⟩ := List.forall₂_cons_left_iff.mp words
    rw [List.forall₂_nil_left_iff.mp hrest] at hws
    have same : v = u := by
      rcases hv with rfl | ⟨r, rfl, -⟩
      · rfl
      · rw [List.head?_append_of_ne_nil _ ho.nonempty] at hh
        exact absurd hh (IsClass.head?_ne ho (.inr (.inl rfl)))
    show some (Text.trim (inText old new h.1)) = some (inName old new (Text.trim h.1))
    rw [Text.trim_eq_of_words hws, Text.trim_eq_of_words hu, same]

/-- A defining line keeps an opcode that does not start with the class. -/
theorem hasOpcode_moveStorageClass (ho : IsClass old) (hn : IsClass new) (hs : l.halves?.isSome = true) {op : Text}
    (hop : ¬ old <+: op) (bare : '_' ∉ op) (h : l.hasOpcode op = true) : (l.moveStorageClass old new).hasOpcode op = true := by
  obtain ⟨halves, hs⟩ := Option.isSome_iff_exists.mp hs
  have hs' := halves?_moveStorageClass_some ho hn hs
  have first : (words halves.2).head? = some op := by
    have := eq_of_beq h
    rwa [opcode?, if_pos (hasCode_of_halves (hs ▸ rfl)), instruction_of_halves hs, words_trim] at this
  have moved := words_inText ho hn halves.2
  rw [hasOpcode, opcode?, if_pos (hasCode_of_halves (hs' ▸ rfl)), instruction_of_halves hs', words_trim, beq_iff_eq]
  cases hws : words halves.2 with
  | nil =>
    rw [hws] at first
    cases first
  | cons w ws =>
    rw [hws] at first moved
    cases first
    obtain ⟨_, ws', ⟨v, hv, rfl⟩, -, hws'⟩ := List.forall₂_cons_left_iff.mp moved
    rw [hws', List.head?_cons]
    rcases hv with rfl | ⟨r, rfl, -⟩
    · refine congrArg some (replaceAll_of_not_mem (storageInName_ne_nil old) fun c hc => ?_)
      cases hc
      exact bare
    · exact absurd (List.prefix_append old r) hop

end Line

end SpirvLink
