import SoapBinding.Proofs.Xml.Entity
import SoapBinding.Xml.Sink

/-!
# Tags that a sink writes

A written tag is a name with attributes behind it, their values escaped and between double quotes. If
the names hold nothing that markup is recognised by, the tag ends where it was closed (`cutTag?_tag`),
its name is what stands in front of the first space, and scanning finds its attributes (`scan_tag`).
-/

namespace SoapBinding.Xml

/-! ### Names -/

/-- The characters that no name in a tag may hold. -/
def tagBreaks : List Char := " \t\r\n<>&'\"=/!?".toList

/-- A name that can be written in a tag, with or without a qualifier. -/
structure IsTagName (s : String) : Prop where
  ne_empty : s ≠ ""
  not_mem : ∀ c ∈ tagBreaks, c ∉ s.toList

/-- A name without a qualifier. The names of XML that hold no colon are among these. -/
structure IsName (s : String) : Prop extends IsTagName s where
  no_colon : ':' ∉ s.toList

instance (s : String) : Decidable (IsTagName s) :=
  decidable_of_iff (s ≠ "" ∧ tagBreaks.all (!s.toList.contains ·))
    ⟨fun h => ⟨h.1, by simpa using h.2⟩, fun h => ⟨h.ne_empty, by simpa using h.not_mem⟩⟩

instance (s : String) : Decidable (IsName s) :=
  decidable_of_iff (IsTagName s ∧ ':' ∉ s.toList) ⟨fun h => ⟨h.1, h.2⟩, fun h => ⟨h.1, h.2⟩⟩

variable {s : String}

/-- The bytes of a name do not hold those of the characters either. -/
theorem IsTagName.not_mem_ofString (h : IsTagName s) (n : Nat) (hascii : n < 0x80)
    (hn : Char.ofNat n ∈ tagBreaks) : UInt8.ofNat n ∉ Utf8.ofString s :=
  fun hmem => h.not_mem _ hn ((Utf8.mem_encode_iff hascii _).1 hmem)

theorem IsTagName.ne_of_mem (h : IsTagName s) {b : UInt8} (hb : b ∈ Utf8.ofString s) (n : Nat)
    (hascii : n < 0x80) (hn : Char.ofNat n ∈ tagBreaks) : b ≠ UInt8.ofNat n :=
  fun he => h.not_mem_ofString n hascii hn (he ▸ hb)

theorem IsTagName.exists_cons (h : IsTagName s) : ∃ b bs, Utf8.ofString s = b :: bs := by
  cases hcs : s.toList with
  | nil => exact absurd (String.toList_eq_nil_iff.1 hcs) h.ne_empty
  | cons c cs =>
    obtain ⟨b, bs, hb⟩ := Utf8.exists_encodeChar_eq_cons c
    refine ⟨b, bs ++ Utf8.encode cs, ?_⟩
    rw [Utf8.ofString, hcs, Utf8.encode_cons, hb, List.cons_append]

/-- No byte of a name is white space. -/
theorem IsTagName.not_isSpace (h : IsTagName s) {b : UInt8} (hb : b ∈ Utf8.ofString s) :
    isSpace b = false := by
  simp only [isSpace, Bool.or_eq_false_iff, beq_eq_false_iff_ne]
  exact ⟨⟨⟨h.ne_of_mem hb 0x20 (by decide) (by decide), h.ne_of_mem hb 0x09 (by decide) (by decide)⟩,
    h.ne_of_mem hb 0x0D (by decide) (by decide)⟩, h.ne_of_mem hb 0x0A (by decide) (by decide)⟩

/-- Every byte of a name belongs to a key. -/
theorem IsTagName.inKey (h : IsTagName s) {b : UInt8} (hb : b ∈ Utf8.ofString s) :
    RawAttribute.inKey b = true := by
  rw [RawAttribute.inKey, h.not_isSpace hb, Bool.not_false, Bool.and_true, bne_iff_ne]
  exact h.ne_of_mem hb 0x3D (by decide) (by decide)

/-! ### Tags as bytes -/

/-- An attribute as it is written, behind a space. -/
def attributeBytes (a : String × String) : Bytes :=
  0x20 :: (Utf8.ofString a.1 ++ 0x3D :: 0x22 :: (Utf8.ofString (escape a.2) ++ [0x22]))

/-- What stands between the angle brackets of a tag. -/
def tagBytes (t : PendingTag) : Bytes := Utf8.ofString t.name ++ t.attributes.flatMap attributeBytes

/-- A tag whose names can be read back. -/
structure IsTag (t : PendingTag) : Prop where
  name : IsTagName t.name
  keys : ∀ a ∈ t.attributes, IsTagName a.1

instance (t : PendingTag) : Decidable (IsTag t) :=
  decidable_of_iff (IsTagName t.name ∧ ∀ a ∈ t.attributes, IsTagName a.1) ⟨fun h => ⟨h.1, h.2⟩, fun h => ⟨h.1, h.2⟩⟩

theorem ofString_renderAttribute (a : String × String) :
    Utf8.ofString (PendingTag.renderAttribute a) = attributeBytes a := by
  rw [PendingTag.renderAttribute, Utf8.ofString_append, Utf8.ofString_append, Utf8.ofString_append,
    Utf8.ofString_append, attributeBytes, show Utf8.ofString " " = [0x20] from rfl,
    show Utf8.ofString "=\"" = [0x3D, 0x22] from rfl, show Utf8.ofString "\"" = [0x22] from rfl]
  simp only [List.append_assoc, List.cons_append, List.nil_append]

theorem ofString_join (ss : List String) : Utf8.ofString (String.join ss) = ss.flatMap Utf8.ofString := by
  induction ss with
  | nil => rfl
  | cons t ss ih => rw [String.join_cons, Utf8.ofString_append, ih, List.flatMap_cons]

theorem ofString_render (t : PendingTag) : Utf8.ofString t.render = tagBytes t := by
  rw [PendingTag.render, Utf8.ofString_append, PendingTag.renderAttributes, ofString_join, tagBytes,
    List.flatMap_map]
  simp only [ofString_renderAttribute]

/-! ### Where a tag ends -/

/-- Bytes in front of a tag's end that are neither quotes nor the end. -/
theorem cutTag?_plain {front bs inside rest : Bytes} (hend : 0x3E ∉ front) (hdouble : 0x22 ∉ front)
    (hsingle : 0x27 ∉ front) (h : Token.cutTag? none bs = some (inside, rest)) :
    Token.cutTag? none (front ++ bs) = some (front ++ inside, rest) := by
  induction front with
  | nil => exact h
  | cons b front ih =>
    rw [List.mem_cons, not_or] at hend hdouble hsingle
    have hb : (b == 0x3E) = false := beq_eq_false_iff_ne.2 (Ne.symm hend.1)
    have hquote : (b == 0x22 || b == 0x27) = false := by
      rw [Bool.or_eq_false_iff, beq_eq_false_iff_ne, beq_eq_false_iff_ne]
      exact ⟨Ne.symm hdouble.1, Ne.symm hsingle.1⟩
    rw [List.cons_append, Token.cutTag?, hb, if_neg (by decide)]
    dsimp only
    rw [hquote, if_neg (by decide), ih hend.2 hdouble.2 hsingle.2]
    rfl

/-- Between double quotes no byte ends a tag. -/
theorem cutTag?_quoted {front bs inside rest : Bytes} (hfront : 0x22 ∉ front)
    (h : Token.cutTag? none bs = some (inside, rest)) :
    Token.cutTag? none (0x22 :: (front ++ 0x22 :: bs)) =
      some (0x22 :: (front ++ 0x22 :: inside), rest) := by
  have hinside : ∀ front : Bytes, 0x22 ∉ front →
      Token.cutTag? (some 0x22) (front ++ 0x22 :: bs) = some (front ++ 0x22 :: inside, rest) := by
    intro front hfront
    induction front with
    | nil =>
      rw [List.nil_append, Token.cutTag?, if_neg (by decide)]
      dsimp only
      rw [if_pos (by decide), h]
      rfl
    | cons b front ih =>
      rw [List.mem_cons, not_or] at hfront
      have hb : (b == 0x22) = false := beq_eq_false_iff_ne.2 (Ne.symm hfront.1)
      rw [List.cons_append, Token.cutTag?, Option.isNone_some, Bool.false_and, if_neg (by decide)]
      dsimp only
      rw [hb, if_neg (by decide), ih hfront.2]
      rfl
  rw [Token.cutTag?, if_neg (by decide)]
  dsimp only
  rw [if_pos (by decide), hinside front hfront]
  rfl

/-- A written attribute does not end a tag. -/
theorem cutTag?_attribute {a : String × String} (ha : IsTagName a.1) {bs inside rest : Bytes}
    (h : Token.cutTag? none bs = some (inside, rest)) :
    Token.cutTag? none (attributeBytes a ++ bs) = some (attributeBytes a ++ inside, rest) := by
  have hvalue := not_mem_ofString_escape 0x22 (by decide) (by decide) a.2
  have hquoted := cutTag?_quoted hvalue h
  have hsign := @cutTag?_plain [0x3D] _ _ _ (by decide) (by decide) (by decide) hquoted
  have hkey := cutTag?_plain (ha.not_mem_ofString 0x3E (by decide) (by decide))
    (ha.not_mem_ofString 0x22 (by decide) (by decide))
    (ha.not_mem_ofString 0x27 (by decide) (by decide)) hsign
  have hspace := @cutTag?_plain [0x20] _ _ _ (by decide) (by decide) (by decide) hkey
  simpa only [attributeBytes, List.append_assoc, List.cons_append, List.nil_append] using hspace

/-- **A written tag ends where it is closed.** -/
theorem cutTag?_tag {t : PendingTag} (ht : IsTag t) {bs inside rest : Bytes}
    (h : Token.cutTag? none bs = some (inside, rest)) :
    Token.cutTag? none (tagBytes t ++ bs) = some (tagBytes t ++ inside, rest) := by
  have hattributes : ∀ attributes : List (String × String), (∀ a ∈ attributes, IsTagName a.1) →
      Token.cutTag? none (attributes.flatMap attributeBytes ++ bs) =
        some (attributes.flatMap attributeBytes ++ inside, rest) := by
    intro attributes hkeys
    induction attributes with
    | nil => exact h
    | cons a attributes ih =>
      rw [List.flatMap_cons, List.append_assoc, List.append_assoc]
      exact cutTag?_attribute (hkeys a List.mem_cons_self)
        (ih fun b hb => hkeys b (List.mem_cons_of_mem a hb))
  rw [tagBytes, List.append_assoc, List.append_assoc]
  exact cutTag?_plain (ht.name.not_mem_ofString 0x3E (by decide) (by decide))
    (ht.name.not_mem_ofString 0x22 (by decide) (by decide))
    (ht.name.not_mem_ofString 0x27 (by decide) (by decide)) (hattributes _ ht.keys)

/-! ### The parts of a tag -/

/-- An attribute as it is scanned. -/
def rawOf (a : String × String) : RawAttribute := ⟨Utf8.ofString a.1, Utf8.ofString (escape a.2)⟩

/-- The name of a written tag. -/
theorem nameOf_tagBytes {t : PendingTag} (ht : IsTag t) :
    Element.nameOf (tagBytes t) = Utf8.ofString t.name := by
  have hname : ∀ b ∈ Utf8.ofString t.name, (!isSpace b) = true := by
    intro b hb
    rw [ht.name.not_isSpace hb]
    rfl
  rw [Element.nameOf, tagBytes, List.takeWhile_append_of_pos hname]
  cases t.attributes with
  | nil => exact List.append_nil _
  | cons a attributes =>
    rw [List.flatMap_cons, attributeBytes, List.cons_append, List.takeWhile_cons, if_neg (by decide),
      List.append_nil]

/-- A written attribute is read up to its closing quote. -/
theorem read?_attribute {key value rest : Bytes} {first : UInt8}
    (hkey : ∀ b ∈ key, RawAttribute.inKey b = true) (hvalue : 0x22 ∉ value) :
    RawAttribute.read? first (key ++ 0x3D :: 0x22 :: (value ++ 0x22 :: rest)) =
      some (⟨first :: key, value⟩, rest) := by
  have hvalue' : ∀ b ∈ value, (b != 0x22) = true := by
    intro b hb
    rw [bne_iff_ne]
    rintro rfl
    exact hvalue hb
  unfold RawAttribute.read?
  rw [List.dropWhile_append_of_pos hkey, List.takeWhile_append_of_pos hkey]
  rw [List.dropWhile_cons, List.takeWhile_cons, if_neg (by decide), if_neg (by decide),
    List.dropWhile_cons, if_neg (by decide)]
  dsimp only
  rw [if_neg (by decide), List.dropWhile_cons, if_neg (by decide)]
  dsimp only
  rw [if_neg (by decide), List.dropWhile_append_of_pos hvalue', List.takeWhile_append_of_pos hvalue',
    List.dropWhile_cons, List.takeWhile_cons, if_neg (by decide), if_neg (by decide),
    List.append_nil, List.append_nil]

/-- **Scanning finds the attributes of a written tag.** -/
theorem scan_attributes {attributes : List (String × String)}
    (hkeys : ∀ a ∈ attributes, IsTagName a.1) :
    RawAttributes.scan (attributes.flatMap attributeBytes) = ⟨attributes.map rawOf, false⟩ := by
  induction attributes with
  | nil =>
    rw [List.flatMap_nil, RawAttributes.scan]
    rfl
  | cons a attributes ih =>
    obtain ⟨first, key, hcons⟩ := (hkeys a List.mem_cons_self).exists_cons
    have hkey : ∀ b ∈ key, RawAttribute.inKey b = true := fun b hb =>
      (hkeys a List.mem_cons_self).inKey (by rw [hcons]; exact List.mem_cons_of_mem first hb)
    have hfirst : isSpace first = false :=
      (hkeys a List.mem_cons_self).not_isSpace (by rw [hcons]; exact List.mem_cons_self)
    have hdrop : ((a :: attributes).flatMap attributeBytes).dropWhile isSpace =
        first :: (key ++ 0x3D :: 0x22 :: (Utf8.ofString (escape a.2) ++ 0x22 ::
          attributes.flatMap attributeBytes)) := by
      rw [List.flatMap_cons, attributeBytes, hcons]
      simp only [List.append_assoc, List.cons_append, List.nil_append]
      rw [List.dropWhile_cons, if_pos (by decide), List.dropWhile_cons, if_neg (by simp [hfirst])]
    have hread := @read?_attribute key _ (attributes.flatMap attributeBytes) first hkey
      (not_mem_ofString_escape 0x22 (by decide) (by decide) a.2)
    rw [RawAttributes.scan]
    split
    · next hnil =>
      rw [hdrop] at hnil
      cases hnil
    · next first' rest heq =>
      rw [hdrop] at heq
      cases heq
      split
      · next hnone =>
        rw [hread] at hnone
        cases hnone
      · next a' rest' hsome =>
        rw [hread] at hsome
        cases hsome
        rw [ih fun b hb => hkeys b (List.mem_cons_of_mem a hb), List.map_cons, rawOf, hcons]
        rfl

/-- The attributes stand behind the name. -/
theorem scan_tag {t : PendingTag} (ht : IsTag t) :
    RawAttributes.scan ((tagBytes t).drop (Element.nameOf (tagBytes t)).length) =
      ⟨t.attributes.map rawOf, false⟩ := by
  rw [nameOf_tagBytes ht, tagBytes, List.drop_left, scan_attributes ht.keys]

end SoapBinding.Xml
