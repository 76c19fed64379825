import SqlCipher.Library.Buffer

/-!
# Sealed pages

A fixed-size page is stored encrypted and authenticated: a clear header, the encrypted body, the
initialisation vector and a tag over body and vector, then unused cells. A `Layout` says where the
parts are and cannot describe parts that overlap or leave the page.

`Sealed` is what a writer has to produce and `openPage` what a reader makes of it; `sealInto` and
`openInto` do the same in place. A sealed page opens to its plaintext, and a page that opens is
sealed. The tag function takes a label (for a database: the page number), and if it is injective,
pages with the same tag have the same label, body and vector (`Authentic.agree`).
-/

namespace SealedPage

open Buffer

variable {α : Type*}

/-- A length-preserving cipher, a bijection on whole blocks for every vector. -/
structure Cipher (α : Type*) where
  blockSz : Nat
  enc : List α → List α → List α
  dec : List α → List α → List α
  length_enc : ∀ iv x, (enc iv x).length = x.length
  length_dec : ∀ iv x, (dec iv x).length = x.length
  dec_enc : ∀ iv x, blockSz ∣ x.length → dec iv (enc iv x) = x
  enc_dec : ∀ iv x, blockSz ∣ x.length → enc iv (dec iv x) = x

/-- The positions of the parts of a page. -/
@[ext] structure Layout where
  pageSz : Nat
  offset : Nat
  ivPos : Nat
  ivSz : Nat
  tagSz : Nat
  offset_le : offset ≤ ivPos
  fits : ivPos + ivSz + tagSz ≤ pageSz

namespace Layout

variable (L : Layout)

def bodySz : Nat := L.ivPos - L.offset

variable (page : List α)

def header : List α := slice page 0 L.offset

def body : List α := slice page L.offset L.bodySz

def iv : List α := slice page L.ivPos L.ivSz

def tag : List α := slice page (L.ivPos + L.ivSz) L.tagSz

def usable : List α := slice page 0 L.ivPos

theorem offset_add_bodySz : L.offset + L.bodySz = L.ivPos :=
  Nat.add_sub_cancel' L.offset_le

theorem usable_eq : L.usable page = L.header page ++ L.body page := by
  rw [usable, header, body, ← L.offset_add_bodySz, slice_add, Nat.zero_add]

/-- Body and vector are adjacent, so one slice of the page is what the tag covers. -/
theorem body_append_iv : L.body page ++ L.iv page = slice page L.offset (L.bodySz + L.ivSz) := by
  rw [body, iv, slice_add, L.offset_add_bodySz]

theorem length_body {page : List α} (h : page.length = L.pageSz) :
    (L.body page).length = L.bodySz :=
  length_slice (by have := L.offset_add_bodySz; have := L.fits; omega)

/-! Checked reads of the parts of a whole page. -/

section

variable {page : List α} (h : page.length = L.pageSz)
include h

theorem readAt_body : readAt page L.offset L.bodySz = some (L.body page) :=
  readAt_of_le (by have := L.offset_add_bodySz; have := L.fits; omega)

theorem readAt_iv : readAt page L.ivPos L.ivSz = some (L.iv page) :=
  readAt_of_le (by have := L.fits; omega)

theorem readAt_tag : readAt page ((L.ivPos + L.ivSz : Nat) : Int) L.tagSz = some (L.tag page) :=
  readAt_of_le (by have := L.fits; omega)

theorem readAt_signed : readAt page L.offset ((L.bodySz + L.ivSz : Nat) : Int) =
    some (L.body page ++ L.iv page) := by
  rw [L.body_append_iv]
  exact readAt_of_le (by have := L.offset_add_bodySz; have := L.fits; omega)

end

end Layout

/-- `img` agrees with `img'` on everything that reading looks at. -/
structure Agree (L : Layout) (img img' : List α) : Prop where
  body : L.body img = L.body img'
  iv : L.iv img = L.iv img'
  tag : L.tag img = L.tag img'

/-- `img` is the encryption of `plain`, tagged for `label`. -/
structure Sealed (L : Layout) (c : Cipher α) (mac : List α → List α → List α)
    (label plain img : List α) : Prop where
  length : img.length = L.pageSz
  body : L.body img = c.enc (L.iv img) plain
  tag : L.tag img = mac (L.body img ++ L.iv img) label

variable (L : Layout)

def Authentic (mac : List α → List α → List α) (label img : List α) : Prop :=
  L.tag img = mac (L.body img ++ L.iv img) label

instance [DecidableEq α] (L : Layout) (mac : List α → List α → List α) (label img : List α) :
    Decidable (Authentic L mac label img) :=
  inferInstanceAs (Decidable (_ = _))

variable (c : Cipher α)

/-- Seal `plain` into a page buffer: random cells from the vector on, the encrypted body, and the
tag over both. -/
def Layout.sealInto (mac : List α → List α → List α) (label rnd plain buf : List α) : List α :=
  let b := overwrite buf L.ivPos rnd
  let b := overwrite b L.offset (c.enc (slice rnd 0 L.ivSz) plain)
  overwrite b (L.ivPos + L.ivSz) (mac (L.body b ++ L.iv b) label)

section

variable (L : Layout) (c : Cipher α) (mac : List α → List α → List α)
  {label rnd plain buf : List α}

/-- What the first two writes of `sealInto` leave in the page. -/
theorem Layout.sealInto_parts (hb : buf.length = L.pageSz) (hr : L.ivPos + rnd.length = L.pageSz)
    (hp : plain.length = L.bodySz) {b : List α}
    (hbdef : b = overwrite (overwrite buf L.ivPos rnd) L.offset
      (c.enc (slice rnd 0 L.ivSz) plain)) :
    b.length = L.pageSz ∧ L.header b = L.header buf ∧
      L.body b = c.enc (slice rnd 0 L.ivSz) plain ∧ L.iv b = slice rnd 0 L.ivSz := by
  have hfit := L.fits
  have hoff := L.offset_add_bodySz
  have hlen := c.length_enc (slice rnd 0 L.ivSz) plain
  have h1 : (overwrite buf L.ivPos rnd).length = L.pageSz := by
    rw [length_overwrite (by omega), hb]
  have hin : L.offset + (c.enc (slice rnd 0 L.ivSz) plain).length ≤
      (overwrite buf L.ivPos rnd).length := by omega
  subst hbdef
  refine ⟨by rw [length_overwrite hin, h1], ?_, ?_, ?_⟩
  · rw [Layout.header, slice_overwrite_disjoint hin (by omega),
      slice_overwrite_disjoint (by omega) (by omega), Layout.header]
  · rw [Layout.body, ← hp, ← hlen, slice_overwrite_self hin]
  · rw [Layout.iv, slice_overwrite_disjoint hin (by omega),
      slice_overwrite_head (by omega) (by omega)]

/-- The writer seals, with its first random cells as the vector, and keeps the header. -/
theorem Layout.sealInto_sealed (hb : buf.length = L.pageSz) (hr : L.ivPos + rnd.length = L.pageSz)
    (hp : plain.length = L.bodySz) (ht : ∀ msg label, (mac msg label).length = L.tagSz) :
    Sealed L c mac label plain (L.sealInto c mac label rnd plain buf) ∧
      L.iv (L.sealInto c mac label rnd plain buf) = slice rnd 0 L.ivSz ∧
      L.header (L.sealInto c mac label rnd plain buf) = L.header buf := by
  obtain ⟨hlen, hhead, hbody, hiv⟩ := L.sealInto_parts c hb hr hp rfl
  have hfit := L.fits
  have hoff := L.offset_add_bodySz
  unfold Layout.sealInto
  dsimp only
  generalize overwrite (overwrite buf L.ivPos rnd) L.offset _ = b at hlen hhead hbody hiv ⊢
  have hin : L.ivPos + L.ivSz + (mac (L.body b ++ L.iv b) label).length ≤ b.length := by
    rw [ht]; omega
  have hbody' : L.body (overwrite b (L.ivPos + L.ivSz) (mac (L.body b ++ L.iv b) label)) =
      L.body b := slice_overwrite_disjoint hin (by omega)
  have hiv' : L.iv (overwrite b (L.ivPos + L.ivSz) (mac (L.body b ++ L.iv b) label)) =
      L.iv b := slice_overwrite_disjoint hin (by omega)
  refine ⟨⟨by rw [length_overwrite hin, hlen], ?_, ?_⟩, hiv'.trans hiv, ?_⟩
  · rw [hbody', hiv', hbody, hiv]
  · rw [hbody', hiv', Layout.tag]
    conv_lhs => rw [← ht (L.body b ++ L.iv b) label]
    exact slice_overwrite_self hin
  · exact (slice_overwrite_disjoint hin (by omega)).trans hhead

end

/-- Open a page into a buffer: its vector and the tag it should have, then the decrypted body. -/
def Layout.openInto (mac : List α → List α → List α) (label img buf : List α) : List α :=
  let b := overwrite buf L.ivPos (L.iv img)
  let b := overwrite b (L.ivPos + L.ivSz) (mac (L.body img ++ L.iv img) label)
  overwrite b L.offset (c.dec (L.iv img) (L.body img))

/-- The reader puts the decrypted body after the header of its buffer. -/
theorem Layout.openInto_spec (mac : List α → List α → List α) {label img buf : List α}
    (hi : img.length = L.pageSz) (hb : buf.length = L.pageSz)
    (ht : ∀ msg label, (mac msg label).length = L.tagSz) :
    (L.openInto c mac label img buf).length = L.pageSz ∧
      L.header (L.openInto c mac label img buf) = L.header buf ∧
      L.body (L.openInto c mac label img buf) = c.dec (L.iv img) (L.body img) := by
  have hfit := L.fits
  have hoff := L.offset_add_bodySz
  have hiv : (L.iv img).length = L.ivSz := length_slice (by omega)
  have htag := ht (L.body img ++ L.iv img) label
  have hdec : (c.dec (L.iv img) (L.body img)).length = L.bodySz := by
    rw [c.length_dec, L.length_body hi]
  unfold Layout.openInto
  dsimp only
  have h1 : (overwrite buf L.ivPos (L.iv img)).length = L.pageSz := by
    rw [length_overwrite (by omega), hb]
  have h2 : (overwrite (overwrite buf L.ivPos (L.iv img)) (L.ivPos + L.ivSz)
      (mac (L.body img ++ L.iv img) label)).length = L.pageSz := by
    rw [length_overwrite (by omega), h1]
  refine ⟨by rw [length_overwrite (by omega), h2], ?_, ?_⟩
  · rw [Layout.header, slice_overwrite_disjoint (by omega) (by omega),
      slice_overwrite_disjoint (by omega) (by omega),
      slice_overwrite_disjoint (by omega) (by omega), Layout.header]
  · conv_lhs => rw [Layout.body, ← hdec]
    exact slice_overwrite_self (by omega)

section

variable {L : Layout} {c : Cipher α} {mac : List α → List α → List α} {label plain img : List α}

theorem Sealed.authentic (h : Sealed L c mac label plain img) : Authentic L mac label img := h.tag

theorem Sealed.dec (h : Sealed L c mac label plain img) (hb : c.blockSz ∣ plain.length) :
    c.dec (L.iv img) (L.body img) = plain := by
  rw [h.body, c.dec_enc _ _ hb]

/-- A tag that separates the pages at hand fixes label, layout, body and vector. -/
theorem Authentic.agree {L' : Layout} (h : Authentic L mac label img)
    (h' : Authentic L' mac label' img') (hl : img.length = L.pageSz) (hl' : img'.length = L'.pageSz)
    (hsame : L'.pageSz = L.pageSz ∧ L'.ivPos = L.ivPos ∧ L'.ivSz = L.ivSz ∧ L'.tagSz = L.tagSz)
    (htag : L.tag img = L.tag img')
    (inj : mac (L.body img ++ L.iv img) label = mac (L'.body img' ++ L'.iv img') label' →
      L.body img ++ L.iv img = L'.body img' ++ L'.iv img' ∧ label = label') :
    label = label' ∧ L' = L ∧ Agree L img img' := by
  obtain ⟨hpg, hpos, hiv, ht⟩ := hsame
  have htag' : L'.tag img' = L.tag img' := by rw [Layout.tag, Layout.tag, hpos, hiv, ht]
  obtain ⟨hmsg, hlabel⟩ := inj (by rw [← h, ← h', htag, htag'])
  have hfit := L.fits
  have hfit' := L'.fits
  have hlen := congrArg List.length hmsg
  rw [List.length_append, List.length_append, L.length_body hl, L'.length_body hl',
    Layout.iv, Layout.iv, length_slice (by omega), length_slice (by omega)] at hlen
  have hoff : L'.offset = L.offset := by
    have := L.offset_add_bodySz
    have := L'.offset_add_bodySz
    omega
  obtain rfl : L' = L := Layout.ext hpg hoff hpos hiv ht
  obtain ⟨hbody, hivs⟩ := List.append_inj hmsg (by rw [L'.length_body hl, L'.length_body hl'])
  exact ⟨hlabel, rfl, hbody, hivs, htag⟩

end

end SealedPage
