import Mathlib.Algebra.Order.Ring.Int
import Mathlib.Data.Nat.Bitwise
import SqlCipher.Codec.Page
import SqlCipher.Library.SealedPage

/-!
# What one page operation does

Every context the setting functions build is well formed (`CodecCtx.Wf`): the page size is a power
of two, the reserve holds IV and HMAC in whole blocks, and the header is whole blocks. If the header
leaves room for the reserve, the positions the code computes are a `SealedPage.Layout`, encryption
seals a page and decryption opens one (`pageEncrypt_eq`, `pageDecrypt_eq`).
-/

namespace SqlCipher

open Buffer SealedPage Option CodecCtx

variable (p : Provider) (g : Globals) (e : Env)

/-! ## Sizes -/

/-- A valid page size is a multiple of 512, since it is a power of two not below it. -/
theorem validPageSize_spec (h : validPageSize size = true) :
    512 ≤ size ∧ size ≤ 65536 ∧ 512 ∣ size.toNat := by
  simp only [validPageSize, Bool.and_eq_true, bne_iff_ne, beq_iff_eq, decide_eq_true_eq] at h
  obtain ⟨⟨⟨h0, hand⟩, lo⟩, hi⟩ := h
  refine ⟨lo, hi, ?_⟩
  obtain ⟨k, hk⟩ := (Nat.and_sub_one_eq_zero_iff_isPowerOfTwo (by omega)).mp hand
  have h9 : 9 ≤ k := by
    by_contra hlt
    have : 2 ^ k < 2 ^ 9 := Nat.pow_lt_pow_right (by omega) (by omega)
    omega
  rw [hk]
  exact pow_dvd_pow 2 h9

theorem Provider.blockSz_le : p.blockSz ≤ fileHeaderSz :=
  Nat.le_of_dvd (by decide) p.blockSz_dvd

theorem Provider.reserve_le_256 (useHmac : Bool) (a : HmacAlgorithm) :
    p.reserve useHmac a ≤ 256 := by
  have hb : p.blockSz ≤ 16 := p.blockSz_le
  have ha := p.reserve_le a
  refine (roundUp_le _ _).trans ?_
  split <;> omega

/-! ## Well-formed contexts -/

structure CodecCtx.Wf (ctx : CodecCtx) : Prop where
  pageSz : validPageSize ctx.pageSz = true
  reserveSz : ctx.reserveSz = p.reserve ctx.flags.hmac ctx.hmacAlgorithm
  hmacSz : ctx.hmacSz = p.hmacSz ctx.hmacAlgorithm
  header : ctx.plaintextHeaderSz = -1 ∨
    0 ≤ ctx.plaintextHeaderSz ∧ (p.blockSz : Int) ∣ ctx.plaintextHeaderSz
  buffer : ctx.buffer.length = ctx.pageSz

def CodecCtx.tagSz (ctx : CodecCtx) : Nat := if ctx.flags.hmac then ctx.hmacSz else 0

namespace CodecCtx.Wf

variable {p} {ctx : CodecCtx} (w : ctx.Wf p)
include w

theorem pageSz_ge : 512 ≤ ctx.pageSz := by
  have := (validPageSize_spec w.pageSz).1
  omega

theorem reserveSz_le : ctx.reserveSz ≤ 256 := w.reserveSz ▸ p.reserve_le_256 _ _

theorem tagSz_le : p.ivSz + ctx.tagSz ≤ ctx.reserveSz := by
  rw [w.reserveSz, tagSz, w.hmacSz]
  exact le_roundUp _ p.blockSz_pos

theorem blockSz_dvd_pageSz : p.blockSz ∣ ctx.pageSz :=
  (p.blockSz_dvd.trans (by decide : fileHeaderSz ∣ 512)).trans
    (by simpa using (validPageSize_spec w.pageSz).2.2)

theorem blockSz_dvd_reserveSz : p.blockSz ∣ ctx.reserveSz :=
  w.reserveSz ▸ dvd_roundUp _ _

end CodecCtx.Wf

/-! ## The layout of a page -/

structure CodecCtx.HasLayout (ctx : CodecCtx) (pgno : Pgno) (L : Layout) : Prop where
  pageSz : L.pageSz = ctx.pageSz
  offset : (L.offset : Int) = ctx.offset pgno
  ivPos : L.ivPos + ctx.reserveSz = ctx.pageSz
  ivSz : L.ivSz = p.ivSz
  tagSz : L.tagSz = ctx.tagSz

def CodecCtx.pageKey (ctx : CodecCtx) (role : CipherRole) : Cipher UInt8 where
  blockSz := p.blockSz
  enc := p.encrypt (shield g.shieldMask (ctx.cipherCtx role).key)
  dec := p.decrypt (shield g.shieldMask (ctx.cipherCtx role).key)
  length_enc := p.length_encrypt _
  length_dec := p.length_decrypt _
  dec_enc := p.decrypt_encrypt _
  enc_dec := p.encrypt_decrypt _

/-- The tag function of a context, with the page number as its label: no tag without HMAC. -/
def CodecCtx.mac (ctx : CodecCtx) (role : CipherRole) (msg label : Bytes) : Bytes :=
  if ctx.flags.hmac then
    p.hmac ctx.hmacAlgorithm (shield g.shieldMask (ctx.cipherCtx role).hmacKey) msg label
  else []

def CodecCtx.Fits (ctx : CodecCtx) (pgno : Pgno) : Prop :=
  0 ≤ ctx.offset pgno ∧ ctx.offset pgno ≤ (ctx.pageSz : Int) - ctx.reserveSz

variable {p g e} {ctx : CodecCtx} {role : CipherRole} {pgno : Pgno} {L : Layout}

theorem CodecCtx.Wf.exists_layout (w : ctx.Wf p) (h : ctx.Fits pgno) :
    ∃ L, ctx.HasLayout p pgno L := by
  have := w.tagSz_le
  have := w.reserveSz_le
  have := w.pageSz_ge
  obtain ⟨h0, hle⟩ := h
  exact ⟨{ pageSz := ctx.pageSz, offset := (ctx.offset pgno).toNat
           ivPos := ctx.pageSz - ctx.reserveSz, ivSz := p.ivSz, tagSz := ctx.tagSz
           offset_le := by omega, fits := by omega },
    rfl, Int.toNat_of_nonneg h0, Nat.sub_add_cancel (by omega), rfl, rfl⟩

/-- Only the header of page 1 can fail to fit. -/
theorem CodecCtx.Wf.fits (w : ctx.Wf p)
    (h : pgno ≠ 1 ∨ 0 ≤ ctx.plaintextHeaderSz ∧
      ctx.plaintextHeaderSz ≤ (ctx.pageSz : Int) - ctx.reserveSz) : ctx.Fits pgno := by
  have := w.reserveSz_le
  have := w.pageSz_ge
  simp only [Fits, offset, fileHeaderSz]
  rcases h with h | h
  · rw [if_neg h]
    omega
  · split_ifs <;> omega

namespace CodecCtx.HasLayout

variable (hL : ctx.HasLayout p pgno L)
include hL

theorem fits : ctx.Fits pgno := by
  have := hL.offset
  have := hL.ivPos
  have := L.offset_le
  constructor <;> omega

theorem size_eq : (ctx.pageSz : Int) - ctx.offset pgno - ctx.reserveSz = (L.bodySz : Nat) := by
  have := hL.offset
  have := hL.ivPos
  have := L.offset_add_bodySz
  omega

theorem rest_eq : (ctx.pageSz : Int) - ctx.offset pgno = ((ctx.pageSz - L.offset : Nat) : Int) := by
  have := hL.offset
  have := hL.ivPos
  have := L.offset_le
  omega

theorem blockSz_dvd (w : ctx.Wf p) (hdr : 0 ≤ ctx.plaintextHeaderSz) : p.blockSz ∣ L.bodySz := by
  have hoff : (p.blockSz : Int) ∣ ctx.offset pgno := by
    unfold CodecCtx.offset
    split_ifs
    · rcases w.header with h | h
      · omega
      · exact h.2
    · exact_mod_cast p.blockSz_dvd
    · exact Int.dvd_zero _
  have h := hL.size_eq
  have hsz : (p.blockSz : Int) ∣ (L.bodySz : Nat) := by
    rw [← h]
    exact Int.dvd_sub (Int.dvd_sub (Int.natCast_dvd_natCast.mpr w.blockSz_dvd_pageSz) hoff)
      (Int.natCast_dvd_natCast.mpr w.blockSz_dvd_reserveSz)
  exact_mod_cast hsz

theorem bodyEnd_eq : ctx.offset pgno + (L.bodySz : Nat) = (L.ivPos : Nat) := by
  have := hL.offset
  have := L.offset_add_bodySz
  omega

end CodecCtx.HasLayout

/-! ## Wiping -/

def zeroFrom (off : Nat) (page : Bytes) : Bytes := page.take off ++ zeros (page.length - off)

theorem length_zeroFrom (h : off ≤ page.length) : (zeroFrom off page).length = page.length := by
  simp only [zeroFrom, List.length_append, List.length_take, length_zeros]
  omega

theorem memsetZero_eq {page : Bytes} (h : off ≤ page.length) :
    memsetZero page off ((page.length - off : Nat) : Int) = some (zeroFrom off page) := by
  rw [memsetZero, if_neg (by omega), Int.toNat_natCast, writeAt_of_le (by rw [length_zeros]; omega)]
  simp only [overwrite, length_zeros, zeroFrom]
  rw [Nat.add_sub_cancel' h, List.drop_length, List.append_nil]

theorem take_overwrite (h : o + src.length ≤ page.length)
    (ho : off ≤ o) : (overwrite page o src).take off = page.take off := by
  have := slice_overwrite_disjoint (o := 0) (n := off) h (by omega)
  simpa only [slice, List.drop_zero] using this

theorem zeroFrom_overwrite (h : o + src.length ≤ page.length)
    (ho : off ≤ o) : zeroFrom off (overwrite page o src) = zeroFrom off page := by
  rw [zeroFrom, zeroFrom, take_overwrite h ho, length_overwrite h]

theorem CodecCtx.HasLayout.pageError_eq (hL : ctx.HasLayout p pgno L) {buffer : Bytes}
    (hb : buffer.length = ctx.pageSz) :
    ctx.pageError (ctx.offset pgno) buffer = some (.error, zeroFrom L.offset buffer) := by
  have hle : L.offset ≤ buffer.length := by
    have := L.offset_le
    have := hL.ivPos
    omega
  rw [pageError, hL.rest_eq, ← hL.offset, ← hb, memsetZero_eq hle]
  rfl

/-! ## Encryption -/

def CodecCtx.sealed (ctx : CodecCtx) (p : Provider) (g : Globals) (L : Layout)
    (role : CipherRole) (pgno : Pgno) (rnd : Nat → UInt8) (pData buffer : Bytes) : Bytes :=
  L.sealInto (ctx.pageKey p g role) (ctx.mac p g role) (pgnoRaw g ctx.flags pgno)
    (stream rnd ctx.reserveSz) (L.body pData) buffer

theorem CodecCtx.cipher_encrypt (role : CipherRole) (iv : Bytes) (h : p.blockSz ∣ msg.length) :
    ctx.cipher p g e role .encrypt iv msg =
      if e.cipher then some ((ctx.pageKey p g role).enc iv msg) else none := by
  simp [cipher, Nat.mod_eq_zero_of_dvd h, pageKey]

theorem CodecCtx.cipher_decrypt (role : CipherRole) (iv : Bytes) (h : p.blockSz ∣ msg.length) :
    ctx.cipher p g e role .decrypt iv msg =
      if e.cipher then some ((ctx.pageKey p g role).dec iv msg) else none := by
  simp [cipher, Nat.mod_eq_zero_of_dvd h, pageKey]

theorem length_mac (w : ctx.Wf p) (role : CipherRole) (msg label : Bytes) :
    (ctx.mac p g role msg label).length = ctx.tagSz := by
  unfold mac tagSz
  split
  · rw [p.length_hmac, w.hmacSz]
  · rfl

def CodecCtx.providerOk (ctx : CodecCtx) (e : Env) : Bool := e.cipher && (!ctx.flags.hmac || e.hmac)

/-- The page operations of the provider, in the terms of `SealedPage`. -/
theorem CodecCtx.pageHmac_eq (h : ctx.flags.hmac = true) (role : CipherRole) (pgno : Pgno)
    (msg : Bytes) : ctx.pageHmac p g e role pgno msg =
      if e.hmac then some (ctx.mac p g role msg (pgnoRaw g ctx.flags pgno)) else none := by
  simp [pageHmac, mac, h]

theorem CodecCtx.HasLayout.pageSign_eq (hL : ctx.HasLayout p pgno L) (w : ctx.Wf p) {buffer : Bytes}
    (hb : buffer.length = ctx.pageSz) :
    ctx.pageSign p g e role pgno (ctx.offset pgno) buffer = some
      (if !ctx.flags.hmac || e.hmac then
        (.ok, overwrite buffer (L.ivPos + L.ivSz)
          (ctx.mac p g role (L.body buffer ++ L.iv buffer) (pgnoRaw g ctx.flags pgno)))
      else (.error, zeroFrom L.offset buffer)) := by
  have hlen : buffer.length = L.pageSz := hb.trans hL.pageSz.symm
  unfold pageSign
  simp only [hL.size_eq, hL.bodyEnd_eq, ← hL.ivSz, ← Nat.cast_add]
  cases hh : ctx.flags.hmac with
  | false => simp [mac, hh]
  | true =>
    rw [if_pos rfl, ← hL.offset, L.readAt_signed hlen, hL.offset]
    simp only [bind_eq_bind, bind_some, ctx.pageHmac_eq hh]
    cases e.hmac with
    | false => exact hL.pageError_eq hb
    | true =>
      have hin : L.ivPos + L.ivSz + (ctx.mac p g role (L.body buffer ++ L.iv buffer)
          (pgnoRaw g ctx.flags pgno)).length ≤ buffer.length := by
        rw [length_mac w, ← hL.tagSz, hlen]
        exact L.fits
      rw [if_pos rfl]
      dsimp only
      rw [writeAt_of_le hin]
      rfl

/-! ## Pages -/

/-- The page read when it is authentic and all provider operations succeed. -/
def CodecCtx.opened (ctx : CodecCtx) (p : Provider) (g : Globals) (L : Layout)
    (role : CipherRole) (pgno : Pgno) (pData buffer : Bytes) : Bytes :=
  L.openInto (ctx.pageKey p g role) (ctx.mac p g role) (pgnoRaw g ctx.flags pgno) pData buffer

/-- Nothing but zeros from `off` on, as a read past the end of the file leaves it. -/
def ZeroTail (off : Nat) (page : Bytes) : Prop := page.drop off = zeros (page.length - off)

instance (off : Nat) (page : Bytes) : Decidable (ZeroTail off page) :=
  inferInstanceAs (Decidable (_ = _))

theorem CodecCtx.HasLayout.offset_le (hL : ctx.HasLayout p pgno L) : L.offset ≤ ctx.pageSz := by
  have := L.offset_le
  have := hL.ivPos
  omega

section

variable (hL : ctx.HasLayout p pgno L) (w : ctx.Wf p) (hdr : 0 ≤ ctx.plaintextHeaderSz)
  {pData buffer : Bytes} (hP : pData.length = ctx.pageSz) (hb : buffer.length = ctx.pageSz)

include hL hP hb

theorem CodecCtx.HasLayout.pageMismatch_eq :
    ctx.pageMismatch e (ctx.offset pgno) pData buffer = some
      (if e.autoVacuum = true ∧ ZeroTail L.offset pData then (.ok, zeroFrom L.offset buffer)
      else (.error, zeroFrom L.offset buffer)) := by
  have hle := hL.offset_le
  have hdrop : slice pData L.offset (ctx.pageSz - L.offset) = pData.drop L.offset := by
    rw [slice, List.take_of_length_le (by rw [List.length_drop]; omega)]
  have hzero : pData.drop L.offset = zeros (pData.drop L.offset).length ↔
      ZeroTail L.offset pData := by rw [ZeroTail, List.length_drop]
  unfold pageMismatch
  rw [hL.rest_eq, ← hL.offset, readAt_of_le (by omega), hdrop, ← hb, memsetZero_eq (by omega),
    hL.offset, hL.pageError_eq hb]
  simp only [bind_eq_bind, bind_some, hzero]
  split_ifs <;> rfl

include w hdr

theorem CodecCtx.HasLayout.pageEncrypt_eq :
    ctx.pageEncrypt p g e role pgno (ctx.offset pgno) pData buffer = some
      (match e.random with
      | none => (.error, zeroFrom L.offset buffer)
      | some rnd =>
        if ctx.providerOk e then (.ok, ctx.sealed p g L role pgno rnd pData buffer)
        else (.error, zeroFrom L.offset buffer)) := by
  have hpg := hL.pageSz
  have hsz : pData.length = L.pageSz := hP.trans hpg.symm
  have hbody := L.length_body hsz
  unfold pageEncrypt
  simp only [hL.size_eq, hL.bodyEnd_eq, ← hL.ivSz]
  cases e.random with
  | none => exact hL.pageError_eq hb
  | some rnd =>
    have hr : L.ivPos + (stream rnd ctx.reserveSz).length = ctx.pageSz := by
      rw [length_stream, hL.ivPos]
    have hfit := L.fits
    obtain ⟨hlen, -⟩ := L.sealInto_parts (ctx.pageKey p g role) (hb.trans hpg.symm)
      (hr.trans hpg.symm) hbody rfl
    have h1 : (overwrite buffer L.ivPos (stream rnd ctx.reserveSz)).length = ctx.pageSz := by
      rw [length_overwrite (by omega), hb]
    have hz1 : zeroFrom L.offset (overwrite buffer L.ivPos (stream rnd ctx.reserveSz)) =
        zeroFrom L.offset buffer := zeroFrom_overwrite (by omega) L.offset_le
    dsimp only
    rw [writeAt_of_le (by omega)]
    simp only [bind_eq_bind, bind_some, L.readAt_iv (h1.trans hpg.symm), ← hL.offset,
      L.readAt_body hsz]
    rw [Layout.iv, slice_overwrite_head (by omega) (by omega),
      ctx.cipher_encrypt role _ (by rw [hbody]; exact hL.blockSz_dvd w hdr)]
    have hin : L.offset + ((ctx.pageKey p g role).enc (slice (stream rnd ctx.reserveSz) 0 L.ivSz)
        (L.body pData)).length ≤ (overwrite buffer L.ivPos (stream rnd ctx.reserveSz)).length := by
      rw [(ctx.pageKey p g role).length_enc, hbody, h1, L.offset_add_bodySz]
      omega
    cases hc : e.cipher with
    | false =>
      simp only [Bool.false_eq_true, if_false, providerOk, hc, Bool.false_and]
      rw [hL.offset, hL.pageError_eq h1, hz1]
    | true =>
      rw [if_pos rfl]
      dsimp only
      rw [writeAt_of_le hin]
      simp only [bind_some, hL.offset]
      rw [hL.pageSign_eq w (hlen.trans hpg), zeroFrom_overwrite hin (Nat.le_refl _), hz1,
        providerOk, hc, Bool.true_and]
      rfl

theorem CodecCtx.HasLayout.pageDecryptBody_eq (hiv : L.iv buffer = L.iv pData) :
    ctx.pageDecryptBody p g e role (ctx.offset pgno) pData buffer = some
      (if e.cipher then (.ok, overwrite buffer L.offset
        ((ctx.pageKey p g role).dec (L.iv pData) (L.body pData)))
      else (.error, zeroFrom L.offset buffer)) := by
  have hpg := hL.pageSz
  have hsz : pData.length = L.pageSz := hP.trans hpg.symm
  have hbody := L.length_body hsz
  unfold pageDecryptBody
  simp only [hL.size_eq, hL.bodyEnd_eq, ← hL.ivSz, L.readAt_iv (hb.trans hpg.symm), hiv]
  rw [← hL.offset, L.readAt_body hsz]
  simp only [bind_eq_bind, bind_some]
  rw [ctx.cipher_decrypt role _ (by rw [hbody]; exact hL.blockSz_dvd w hdr)]
  cases e.cipher with
  | false => rw [hL.offset]; exact hL.pageError_eq hb
  | true =>
    have hin : L.offset + ((ctx.pageKey p g role).dec (L.iv pData) (L.body pData)).length ≤
        buffer.length := by
      rw [(ctx.pageKey p g role).length_dec, hbody, L.offset_add_bodySz, hb]
      have := hL.ivPos
      omega
    rw [if_pos rfl]
    dsimp only
    rw [writeAt_of_le hin]
    rfl

theorem CodecCtx.HasLayout.pageDecrypt_eq :
    ctx.pageDecrypt p g e role pgno (ctx.offset pgno) pData buffer = some
      (if ctx.flags.hmac = true ∧ e.hmac = false then (.error, zeroFrom L.offset buffer)
      else if Authentic L (ctx.mac p g role) (pgnoRaw g ctx.flags pgno) pData then
        if e.cipher then (.ok, ctx.opened p g L role pgno pData buffer)
        else (.error, zeroFrom L.offset buffer)
      else if e.autoVacuum = true ∧ ZeroTail L.offset pData then (.ok, zeroFrom L.offset buffer)
      else (.error, zeroFrom L.offset buffer)) := by
  have hpg := hL.pageSz
  have hsz : pData.length = L.pageSz := hP.trans hpg.symm
  have hfit := L.fits
  have hivl : (L.iv pData).length = L.ivSz := length_slice (by omega)
  have h1 : (overwrite buffer L.ivPos (L.iv pData)).length = ctx.pageSz := by
    rw [length_overwrite (by omega), hb]
  have hz1 : zeroFrom L.offset (overwrite buffer L.ivPos (L.iv pData)) =
      zeroFrom L.offset buffer := zeroFrom_overwrite (by omega) L.offset_le
  have hiv1 : L.iv (overwrite buffer L.ivPos (L.iv pData)) = L.iv pData := by
    conv_lhs => rw [Layout.iv, ← hivl]
    exact slice_overwrite_self (by omega)
  unfold pageDecrypt
  simp only [hL.size_eq, hL.bodyEnd_eq, ← hL.ivSz, ← Nat.cast_add, L.readAt_iv hsz,
    bind_eq_bind, bind_some]
  rw [writeAt_of_le (by omega)]
  simp only [bind_some]
  cases hh : ctx.flags.hmac with
  | false =>
    have hauth : Authentic L (ctx.mac p g role) (pgnoRaw g ctx.flags pgno) pData := by
      have htag := hL.tagSz
      simp only [CodecCtx.tagSz, hh, Bool.false_eq_true, if_false] at htag
      simp [Authentic, Layout.tag, mac, hh, htag]
    simp only [Bool.false_eq_true, if_false, false_and, if_pos hauth]
    rw [hL.pageDecryptBody_eq w hdr hP h1 hiv1, hz1, opened, Layout.openInto]
    simp [mac, hh]
  | true =>
    have htag : ctx.hmacSz = L.tagSz := by simp [hL.tagSz, CodecCtx.tagSz, hh]
    have hmac : (ctx.mac p g role (L.body pData ++ L.iv pData) (pgnoRaw g ctx.flags pgno)).length =
        L.tagSz := (length_mac w role _ _).trans hL.tagSz.symm
    rw [if_pos rfl, ← hL.offset, L.readAt_signed hsz, hL.offset]
    simp only [bind_some, ctx.pageHmac_eq hh, htag]
    cases e.hmac with
    | false => simpa [hz1] using hL.pageError_eq h1
    | true =>
      simp only [if_true, Bool.true_eq_false, and_false, if_false]
      generalize hm : ctx.mac p g role (L.body pData ++ L.iv pData) (pgnoRaw g ctx.flags pgno) = tag
        at hmac
      have hin : L.ivPos + L.ivSz + tag.length ≤
          (overwrite buffer L.ivPos (L.iv pData)).length := by omega
      have h2 : (overwrite (overwrite buffer L.ivPos (L.iv pData)) (L.ivPos + L.ivSz) tag).length =
          ctx.pageSz := by rw [length_overwrite hin, h1]
      have hz2 := (zeroFrom_overwrite hin (by have := L.offset_le; omega)).trans hz1
      have hiv2 : L.iv (overwrite (overwrite buffer L.ivPos (L.iv pData)) (L.ivPos + L.ivSz) tag) =
          L.iv pData := (slice_overwrite_disjoint hin (by omega)).trans hiv1
      have htag2 : L.tag (overwrite (overwrite buffer L.ivPos (L.iv pData))
        (L.ivPos + L.ivSz) tag) =
          tag := by
        conv_lhs => rw [Layout.tag, ← hmac]
        exact slice_overwrite_self hin
      rw [writeAt_of_le hin]
      simp only [bind_some, L.readAt_tag hsz, L.readAt_tag (h2.trans hpg.symm), htag2]
      rw [hL.pageMismatch_eq hP h2, hL.pageDecryptBody_eq w hdr hP h2 hiv2, hz2]
      simp only [Authentic, hm, opened, Layout.openInto, ne_eq, ite_not]
      split_ifs <;> rfl

end

end SqlCipher
