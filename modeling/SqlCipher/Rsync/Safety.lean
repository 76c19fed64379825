import SqlCipher.Rsync.Protocol

/-!
# The replica after a run of `sqlite3_rsync`

A replica that commits is the same as the origin, up to the change counter that the commit itself
writes (`committed_synced`), if the origin has fewer than `2 ^ 31` pages, the last of which is not
the lock-byte page, no statement fails unnoticed while it sends details or pages, and some page was
sent if the replica was larger. The invariant `Phase` follows the conversation: until the pages are
sent, each page of the replica is as in the origin or in a range on its way (`Cover`).
-/

namespace SqlCipher.Rsync

open List

variable {H : Type} {cfg : Config H} {D db db' : Db} {A A' bad rows : List (Nat × Nat)}
  {L f c n : Nat} {h : H}

def Same (cfg : Config H) (db : Db) (n : Nat) : Prop :=
  n ≤ db.nPage ∧ cfg.data db n = cfg.data cfg.origin n

/-! ## Hashes -/

theorem pages_succ (db : Db) (f c : Nat) : cfg.pages db f (c + 1) =
    (if 1 ≤ f ∧ f ≤ db.nPage then [cfg.data db f] else []) ++ cfg.pages db (f + 1) c := by
  rw [Config.pages, range'_succ, filter_cons]
  split <;> simp_all [Config.pages]

theorem pages_eq_nil (hf : db.nPage < f) : cfg.pages db f c = [] := by
  simp only [Config.pages, map_eq_nil_iff, filter_eq_nil_iff, mem_range'_1]
  grind

theorem same_of_pages (heq : cfg.pages cfg.origin f c = cfg.pages db f c) (h1 : 1 ≤ f) (hf : f ≤ n)
    (hn : n < f + c) (hle : n ≤ cfg.origin.nPage) : Same cfg db n := by
  induction c generalizing f with
  | zero => omega
  | succ c ih =>
    rw [pages_succ, pages_succ, if_pos ⟨h1, hf.trans hle⟩] at heq
    by_cases hdb : f ≤ db.nPage
    · rw [if_pos ⟨h1, hdb⟩] at heq
      obtain ⟨hdata, hrest⟩ := cons.inj heq
      rcases hf.eq_or_lt with rfl | hlt
      · exact ⟨hdb, hdata.symm⟩
      · exact ih hrest (by omega) hlt (by omega)
    · have hnil : cfg.pages db (f + 1) c = [] := pages_eq_nil (by omega)
      rw [if_neg fun hh => hdb hh.2, hnil] at heq
      simp at heq

theorem pages_of_hashOf (heq : cfg.hashOf db f c = some h) (heq' : cfg.hashOf db' f c = some h) :
    cfg.pages db f c = cfg.pages db' f c := by
  unfold Config.hashOf at heq heq'
  by_cases hc : c = 1
  · subst hc
    simp only [Config.pages, range'_one, filter_cons, filter_nil] at *
    have := @cfg.hash_injective
    grind [Function.Injective]
  · have := cfg.agghash_injective (cfg.pages db f c) (cfg.pages db' f c)
    grind

theorem hashOf_isSome (h1 : 1 ≤ f) (hc : 1 ≤ c) (hle : f ≤ db.nPage) :
    ∃ h, cfg.hashOf db f c = some h := by
  obtain ⟨c, rfl⟩ := Nat.exists_eq_add_of_le' hc
  rw [Config.hashOf, pages_succ, if_pos ⟨h1, hle⟩]
  exact ⟨_, rfl⟩

/-! ## Ranges -/

def Apart (x y : Nat × Nat) : Prop := x.1 + x.2 ≤ y.1 ∨ y.1 + y.2 ≤ x.1

/-- Each of the first `L` pages of the replica is as in the origin, or in one of the ranges `A`. -/
structure Cover (cfg : Config H) (D : Db) (L : Nat) (A : List (Nat × Nat)) : Prop where
  row : ∀ x ∈ A, 1 ≤ x.1 ∧ 1 ≤ x.2 ∧ x.1 + x.2 ≤ L + 1
  apart : A.Pairwise Apart
  page : ∀ n, 1 ≤ n → n ≤ cfg.origin.nPage → n ≤ L →
    Same cfg D n ∨ ∃ x ∈ A, x.1 ≤ n ∧ n < x.1 + x.2

theorem Cover.perm (hA : Cover cfg D L A) (hp : A.Perm A') : Cover cfg D L A' where
  row x hx := hA.row x (hp.mem_iff.mpr hx)
  apart := (hp.pairwise_iff fun hxy => hxy.symm).mp hA.apart
  page n h1 hN hL := (hA.page n h1 hN hL).imp_right fun ⟨x, hx, hn⟩ => ⟨x, hp.mem_iff.mp hx, hn⟩

theorem Cover.matched (hA : Cover cfg D L ((f, c) :: A)) (ho : cfg.hashOf cfg.origin f c = some h)
    (hD : cfg.hashOf D f c = some h) : Cover cfg D L A where
  row x hx := hA.row x (mem_cons_of_mem _ hx)
  apart := hA.apart.of_cons
  page n h1 hN hL := by
    have hrow := hA.row _ mem_cons_self
    have := same_of_pages (n := n) (pages_of_hashOf ho hD) hrow.1
    grind [hA.page n h1 hN hL]

theorem chunks_bounds {nChunk iEnd k : Nat} (hchunk : 1 ≤ nChunk) (hn : n < iEnd) :
    ∀ x ∈ chunks nChunk iEnd k n, n ≤ x.1 ∧ 1 ≤ x.2 ∧ x.1 + x.2 ≤ iEnd := by
  induction k generalizing n with
  | zero => simp [chunks]
  | succ k ih =>
    intro x hx
    rcases mem_cons.mp hx with rfl | hx
    · simp only
      omega
    · split at hx
      · have := ih (by omega) x hx
        omega
      · simp at hx

theorem chunks_apart {nChunk iEnd k : Nat} (hchunk : 1 ≤ nChunk) (hn : n < iEnd) :
    (chunks nChunk iEnd k n).Pairwise Apart := by
  induction k generalizing n with
  | zero => exact .nil
  | succ k ih =>
    refine .cons (fun y hy => ?_) ?_
    · split at hy
      · have := chunks_bounds hchunk (by omega) y hy
        exact .inl (by simp only; omega)
      · simp at hy
    · split
      · exact ih (by omega)
      · exact .nil

theorem exists_mem_chunks {nChunk iEnd k m : Nat} (hchunk : 1 ≤ nChunk) (hk : iEnd - n ≤ k)
    (hn : n ≤ m) (hm : m < iEnd) : ∃ x ∈ chunks nChunk iEnd k n, x.1 ≤ m ∧ m < x.1 + x.2 := by
  induction k generalizing n with
  | zero => omega
  | succ k ih =>
    by_cases hhead : m < n + min (iEnd - n) nChunk
    · exact ⟨_, mem_cons_self, hn, hhead⟩
    · obtain ⟨x, hx, hxm⟩ := ih (n := n + nChunk) (by omega) (by omega)
      refine ⟨x, mem_cons_of_mem _ ?_, hxm⟩
      rwa [if_pos (by omega)]

theorem Cover.subdivide (hA : Cover cfg D L ((f, c) :: A)) :
    Cover cfg D L (subdivide f c ++ A) := by
  obtain ⟨h1, hc, hL⟩ : 1 ≤ f ∧ 1 ≤ c ∧ f + c ≤ L + 1 := hA.row _ mem_cons_self
  have hchunk : 1 ≤ if c ≤ 30 then 1 else if c ≤ 1000 then 30 else 1000 := by
    split
    · exact le_rfl
    · split <;> omega
  have hbounds : ∀ x ∈ Rsync.subdivide f c, _ := chunks_bounds hchunk (by omega)
  obtain ⟨hhead, htail⟩ := pairwise_cons.mp hA.apart
  refine ⟨fun x hx => ?_, pairwise_append.mpr ⟨chunks_apart hchunk (by omega), htail,
    fun x hx y hy => ?_⟩, fun n h1 hN hn => ?_⟩
  · rcases mem_append.mp hx with hx | hx
    · have := hbounds x hx
      omega
    · exact hA.row x (mem_cons_of_mem _ hx)
  · have := hbounds x hx
    exact (hhead y hy).imp (by simp only; omega) (by simp only; omega)
  · refine (hA.page n h1 hN hn).imp_right ?_
    rintro ⟨x, hx, hxn⟩
    rcases mem_cons.mp hx with rfl | hx
    · obtain ⟨y, hy, hyn⟩ : ∃ y ∈ Rsync.subdivide f c, y.1 ≤ n ∧ n < y.1 + y.2 :=
        exists_mem_chunks hchunk (by omega) hxn.1 hxn.2
      exact ⟨y, mem_append_left _ hy, hyn⟩
    · exact ⟨x, mem_append_right _ hx, hxn⟩

/-- `REPLACE` replaces nothing, as the new ranges are apart from the others. -/
theorem Cover.replaceRows (hA : Cover cfg D L (rows ++ (bad ++ A))) :
    replaceRows rows bad = rows ++ bad := by
  refine congrArg (rows ++ ·) (filter_eq_self.mpr fun x hx => ?_)
  simp only [mem_map, not_exists, not_and, decide_eq_true_eq]
  intro y hy heq
  have hx' := mem_append_left A hx
  have hcross := (pairwise_append.mp hA.apart).2.2 y hy x hx'
  have hx2 := hA.row x (mem_append_right _ hx')
  have hy2 := hA.row y (mem_append_left _ hy)
  unfold Apart at hcross
  omega

theorem cover_singles (D : Db) (L : Nat) : Cover cfg D L ((range' 1 L).map (·, 1)) where
  row x hx := by
    obtain ⟨n, hn, rfl⟩ := mem_map.mp hx
    have := mem_range'_1.mp hn
    simp only
    omega
  apart := by
    refine pairwise_map.mpr (List.Pairwise.imp (fun hlt => ?_) (pairwise_lt_range'))
    exact .inl (by simp only; omega)
  page n h1 hN hL :=
    .inr ⟨(n, 1), mem_map_of_mem (mem_range'_1.mpr (by omega)), by simp⟩

/-- The first round is about all pages, unless there are too many to be numbered. -/
theorem exists_cover_firstRows (protocol : Nat) (D : Db) :
    ∃ L ≤ D.nPage, Cover cfg D L (firstRows protocol D.nPage) := by
  unfold firstRows
  split
  · split
    · exact ⟨1, by omega, cover_singles D 1⟩
    · exact ⟨_, le_rfl, cover_singles D _⟩
  · rename_i hsize
    have hall : Cover cfg D D.nPage ((2, D.nPage - 1) :: [(1, 1)]) := by
      refine ⟨?_, ?_, fun n h1 hN hL => ?_⟩
      · simp; omega
      · simp [Apart]
      · rcases h1.eq_or_lt with rfl | hlt
        · exact .inr ⟨(1, 1), by simp, by simp⟩
        · exact .inr ⟨_, mem_cons_self, by simp only; omega⟩
    have hsub := hall.subdivide
    refine ⟨_, le_rfl, ?_⟩
    rwa [Cover.replaceRows (A := []) (by simpa using hsub)]

/-! ## The hashes on their way -/

/-- What the messages of the replica mean to an origin that is at `iHash` and `nHash`. -/
inductive Conveys (cfg : Config H) (D : Db) :
    Nat → Nat → List (ReplicaMsg H) → List (Nat × Nat) → Prop
  | ready (i n : Nat) : Conveys cfg D i n [.ready] []
  | config (i n : Nat) {f c : Nat} {ms : List (ReplicaMsg H)} {rows : List (Nat × Nat)}
    (hms : Conveys cfg D f c ms rows) : Conveys cfg D i n (.config f c :: ms) rows
  | hash {f c : Nat} {h : H} {ms : List (ReplicaMsg H)} {rows : List (Nat × Nat)}
    (hh : cfg.hashOf D f c = some h) (hms : Conveys cfg D (f + c) c ms rows) :
    Conveys cfg D f c (.hash h :: ms) ((f, c) :: rows)

theorem conveys_hashMessages (hrow : ∀ x ∈ rows, 1 ≤ x.1 ∧ 1 ≤ x.2 ∧ x.1 ≤ D.nPage)
    (hstart : i' = i ∧ n' = n ∨ ∀ x ∈ rows, x.1 ≠ i') :
    Conveys cfg D i n (hashMessages cfg D i' n' rows) rows := by
  induction rows generalizing i n i' n' with
  | nil => exact .ready i n
  | cons x rows ih =>
    obtain ⟨f, c⟩ := x
    obtain ⟨h1, hc, hle⟩ := hrow _ mem_cons_self
    obtain ⟨h, hh⟩ : ∃ h, cfg.hashOf D f c = some h := hashOf_isSome h1 hc hle
    have hrest :
        Conveys cfg D f c (.hash h :: hashMessages cfg D (f + c) c rows) ((f, c) :: rows) :=
      .hash hh (ih (fun x hx => hrow x (mem_cons_of_mem _ hx)) (.inl ⟨rfl, rfl⟩))
    simp only [hashMessages, hh, Option.toList_some, map_cons, map_nil, cons_append, nil_append]
    split
    · exact .config i n hrest
    · rename_i hsame
      obtain ⟨rfl, rfl⟩ : f = i' ∧ c = n' := by simpa using hsame
      obtain ⟨rfl, rfl⟩ := hstart.resolve_right fun hne => hne _ mem_cons_self rfl
      exact hrest

/-! ## The origin -/

variable {w : Nat → Request → Answer} {o o' : Origin}

def Origin.Gone (o : Origin) : Prop := o.failed = true ∧ ∀ n, OriginMsg.txn n ∉ o.out

theorem gone_reportError (ho : ∀ n, OriginMsg.txn n ∉ o.out) : (o.reportError cfg).Gone := by
  refine ⟨rfl, fun n => ?_⟩
  simp only [Origin.reportError]
  split <;> simp [ho n]

theorem runSql_of {P : Origin → Prop} {q : Request} {k : Origin → Origin}
    (hok : w o.count q = .ok → P (k o)) (herr : w o.count q ≠ .ok → P (o.reportError cfg)) :
    P (o.runSql cfg w q k) := by
  unfold Origin.runSql
  split
  · exact hok ‹_›
  · exact herr ‹_›

/-- The origin has stopped or has checked one range, which matches or is noted as bad. -/
def Checked (cfg : Config H) (h : H) (o o' : Origin) : Prop :=
  o'.Gone ∨ o'.out = [] ∧ o'.iHash = o.iHash + o.nHash ∧ o'.nHash = o.nHash ∧
    o'.mxHash = max o.mxHash (o.iHash + o.nHash) ∧
    (o'.badHash.getD [] = (o.iHash, o.nHash) :: o.badHash.getD [] ∨
      o'.badHash.getD [] = o.badHash.getD [] ∧ cfg.hashOf cfg.origin o.iHash o.nHash = some h)

theorem checked_insertBad (ho : o.out = []) : Checked cfg h o (o.insertBad cfg w).advance := by
  have hgone : (o.reportError cfg).Gone := gone_reportError (by simp [ho])
  simp only [Origin.insertBad]
  split
  · exact .inl hgone
  · refine runSql_of (P := fun o' => Checked cfg h o o'.advance) (fun _ => ?_) fun _ => .inl hgone
    exact .inr ⟨ho, rfl, rfl, rfl, .inl rfl⟩

theorem gone_insertBad (ho : o.Gone) : (o.insertBad cfg w).Gone := by
  simp only [Origin.insertBad]
  split
  · exact gone_reportError ho.2
  · exact runSql_of (fun _ => ho) fun _ => gone_reportError ho.2

section

variable {k : Origin → Origin} (hk : ∀ o : Origin, o.out = [] → Checked cfg h o (k o))
include hk

theorem checked_prepareMulti (ho : o.out = []) : Checked cfg h o (o.prepareMulti cfg w k) := by
  unfold Origin.prepareMulti
  split
  · exact runSql_of (fun _ => hk _ ho) fun _ => .inl (gone_reportError (by simp [ho]))
  · exact hk o ho

theorem checked_prepareHash (ho : o.out = []) : Checked cfg h o (o.prepareHash cfg w k) := by
  have hgone : (o.reportError cfg).Gone := gone_reportError (by simp [ho])
  unfold Origin.prepareHash
  split
  · exact hk o ho
  · rename_i hnone
    refine runSql_of (fun _ => runSql_of (fun _ => runSql_of (fun _ => ?_) fun _ => .inl hgone)
      fun _ => .inl hgone) fun _ => .inl hgone
    simpa [Checked, Option.not_isSome_iff_eq_none.mp hnone] using
      hk { o with badHash := some [] } ho

end

theorem checked_onHash [DecidableEq H] (ho : o.out = []) : Checked cfg h o (o.onHash cfg w h) := by
  refine checked_prepareHash (fun o ho => checked_prepareMulti (fun o ho => ?_) ho) ho
  have hins : Checked cfg h o (o.insertBad cfg w).advance := checked_insertBad ho
  cases hck : w o.count .check with
  | ok =>
    by_cases hm : cfg.hashOf cfg.origin o.iHash o.nHash = some h
    · simp only [Origin.checkHash, hck, hm, decide_true, if_true]
      exact .inr ⟨ho, rfl, rfl, rfl, .inr ⟨rfl, hm⟩⟩
    · simpa only [Origin.checkHash, hck, hm, decide_false, Bool.false_eq_true, if_false]
  | error =>
    simp only [Origin.checkHash, hck, Bool.false_eq_true, if_false]
    exact .inl (gone_insertBad (gone_reportError (by simp [ho])))
  | failure => simpa only [Origin.checkHash, hck, Bool.false_eq_true, if_false]

/-- Errors that the replica does not get to know of. -/
def Unnoticed (cfg : Config H) : Request → Prop
  | .detailRow _ | .pageRow _ => True
  | .tail | .lockByte => cfg.isRemote = false
  | _ => False

theorem fetch_eq {α : Type} (hok : ∀ k, answer k = .ok) (k : Nat)
    (xs : List α) : fetch answer k xs = xs := by
  induction xs generalizing k with
  | nil => rfl
  | cons x xs ih => rw [fetch, if_pos (hok k), ih]

theorem mem_sorted : x ∈ sorted rows ↔ x ∈ rows := mem_insertionSort _

/-- What the origin makes of `REPLICA_READY`: it stops, sends an error first, asks for details, or
sends the pages. -/
inductive Readied (cfg : Config H) (o o' : Origin) : Prop
  | gone (hgone : o'.Gone)
  | error (hout : o'.out.head? = some .error)
  | detail (bad : List (Nat × Nat)) (hbad : o.badHash = some bad) (hmx : o'.mxHash = o.mxHash)
    (hbad' : o'.badHash.getD [] = bad.filter (·.2 ≤ 1))
    (hout : o'.out = (sorted (bad.filter (1 < ·.2))).map (fun x => .detail x.1 x.2) ++ [.ready])
  | pages (bad : List (Nat × Nat)) (ps : List Nat) (hbad : o.badHash = some bad)
    (hsingle : ∀ x ∈ bad, x.2 ≤ 1)
    (hps : ∀ n, n ∈ ps ↔ ((∃ c, (n, c) ∈ bad) ∨ o.mxHash ≤ n) ∧ n ≠ cfg.lockBytePage ∧
      1 ≤ n ∧ n ≤ cfg.origin.nPage)
    (hout : o'.out = ps.map (fun n => .page n (cfg.data cfg.origin n)) ++
      [.txn cfg.origin.nPage, .end])

/-- The pages to be sent are those in `Q`, unless an error has been sent. -/
def Sends (Q : Nat → Prop) (o : Origin) : Prop :=
  o.out.head? = some .error ∨
    o.out = [] ∧ o.failed = false ∧ ∃ bad, o.badHash = some bad ∧ ∀ n, (∃ c, (n, c) ∈ bad) ↔ Q n

section

variable (hw : ∀ k q, Unnoticed cfg q → w k q = .ok) {Q Q' : Nat → Prop}
include hw

theorem Sends.runSql {q : Request} {k : Origin → Origin}
    (hq : cfg.isRemote = false → Unnoticed cfg q) (hk : Sends Q o → Sends Q' (k o))
    (ho : Sends Q o) : Sends Q' (o.runSql cfg w q k) := by
  refine runSql_of (fun _ => hk ho) fun hne => .inl ?_
  have hremote : cfg.isRemote = true := by
    by_contra hlocal
    exact hne (hw _ _ (hq (by simpa using hlocal)))
  rcases ho with ho | ⟨ho, -⟩ <;> simp [Origin.reportError, ho, hremote]

theorem Sends.addTail (hsize : cfg.origin.nPage < 2 ^ 31) (ho : Sends Q o) :
    Sends (fun n => Q n ∨ o.mxHash ≤ n ∧ n ≤ cfg.origin.nPage) (o.addTail cfg w) := by
  unfold Origin.addTail
  split
  · refine Sends.runSql hw id (Or.imp_right ?_) ho
    rintro ⟨hout, hf, bad, hbad, hQ⟩
    refine ⟨hout, hf, _, by rw [hbad]; rfl, fun n => ?_⟩
    have hin : n < o.mxHash + (cfg.origin.nPage + 1 - o.mxHash) ↔ n ≤ cfg.origin.nPage := by omega
    have htail : tailPages o.mxHash cfg.origin.nPage =
        range' o.mxHash (cfg.origin.nPage + 1 - o.mxHash) := by
      rw [tailPages, if_neg (show ¬2 ^ 31 ≤ o.mxHash by omega), if_neg hsize.not_ge]
    simp [← hQ, htail, exists_or, or_comm, hin]
  · refine ho.imp_right ?_
    rintro ⟨hout, hf, bad, hbad, hQ⟩
    exact ⟨hout, hf, bad, hbad, fun n => by simp only [hQ]; grind⟩

theorem Sends.dropLockByte (ho : Sends Q o) :
    Sends (fun n => Q n ∧ n ≠ cfg.lockBytePage) (o.dropLockByte cfg w) := by
  refine Sends.runSql hw id (Or.imp_right ?_) ho
  rintro ⟨hout, hf, bad, hbad, hQ⟩
  exact ⟨hout, hf, _, by rw [hbad]; rfl, fun n => by simp [← hQ]⟩

theorem readied_sendPages (hsize : cfg.origin.nPage < 2 ^ 31) (ho : o.out = [])
    (hf : o.failed = false) (hbad : o.badHash = some bad) (hsingle : ∀ x ∈ bad, x.2 ≤ 1) :
    Readied cfg o (o.sendPages cfg w) := by
  have hsends : Sends (fun n => ∃ c, (n, c) ∈ bad) o := .inr ⟨ho, hf, bad, hbad, fun _ => Iff.rfl⟩
  rcases (hsends.addTail hw hsize).dropLockByte hw with hout | ⟨hout, hf, bad', hbad', hQ⟩
  · refine runSql_of (fun _ => .error ?_) fun _ => .error ?_
    · simp [hout]
    · simp [Origin.reportError, hout]
  · refine runSql_of (fun _ => ?_) fun _ => .gone (gone_reportError (by simp [hout]))
    refine .pages bad
      (((sorted bad').filter fun x => 1 ≤ x.1 ∧ x.1 ≤ cfg.origin.nPage).map Prod.fst)
      hbad hsingle (fun n => ?_) ?_
    · have := hQ n
      simp only [mem_map, mem_filter, mem_sorted]
      grind
    · simp [hf, hout, hbad', Function.comp_def,
        fetch_eq fun k => hw _ _ (show Unnoticed cfg (.pageRow k) from trivial)]

theorem readied_onReady (hsize : cfg.origin.nPage < 2 ^ 31) (ho : o.out = [])
    (hf : o.failed = false) : Readied cfg o (o.onReady cfg w) := by
  have hgone : (o.reportError cfg).Gone := gone_reportError (by simp [ho])
  unfold Origin.onReady
  split
  · exact .gone hgone
  · rename_i bad hbad
    refine runSql_of (fun _ => ?_) fun _ => .gone hgone
    simp only [fetch_eq fun k => hw o.count _ (show Unnoticed cfg (.detailRow k) from trivial)]
    split
    · rename_i hnil
      refine readied_sendPages hw hsize ho hf hbad fun x hx => ?_
      by_contra hlt
      have hmem : x ∈ sorted (bad.filter (1 < ·.2)) :=
        mem_sorted.mpr (mem_filter.mpr ⟨hx, by simpa using hlt⟩)
      simp [hnil] at hmem
    · refine runSql_of (P := fun o' => Readied cfg o { o' with out := o'.out ++ [.ready] })
        (fun _ => ?_) fun _ => ?_
      · exact .detail bad hbad rfl rfl (by simp [ho])
      · refine .gone ⟨rfl, fun n => ?_⟩
        simp only [Origin.reportError]
        split <;> simp [ho]

end

/-! ## The replica -/

/-- The contents are the same, on page 1 up to the bytes of the journal mode. -/
def SamePage (n : Nat) (data data' : Content) : Prop :=
  ∀ i, (n = 1 → i ≠ 18 ∧ i ≠ 19) → data[i]? = data'[i]?

def Synced (cfg : Config H) (origin db : Db) : Prop :=
  db.nPage = origin.nPage ∧
    ∀ n, 1 ≤ n → n ≤ origin.nPage → n ≠ cfg.lockBytePage →
      SamePage n (db.page n) (origin.page n)

/-- The origin with what a commit of the replica `D` writes to page 1. -/
def Config.stamped (cfg : Config H) (D : Db) : Db :=
  { cfg.origin with
    page := Function.update cfg.origin.page 1
      (writeChangecounter (D.page 1) (cfg.origin.page 1)) }

theorem SamePage.set {c c' : Content} (h : SamePage n c c') (pos : Nat) (b : UInt8) :
    SamePage n (c.set pos b) (c'.set pos b) := by
  intro i hi
  rw [getElem?_set', getElem?_set', h i hi]

theorem SamePage.put4byte {c c' : Content} (h : SamePage n c c') (pos v : Nat) :
    SamePage n (put4byte c pos v) (put4byte c' pos v) :=
  (((h.set _ _).set _ _).set _ _).set _ _

theorem SamePage.writeChangecounter {c c' : Content} (h : SamePage n c c') (read : Content) :
    SamePage n (writeChangecounter read c) (writeChangecounter read c') :=
  ((h.put4byte _ _).put4byte _ _).put4byte _ _

theorem samePage_received (r : Replica H) (n : Nat) (c : Content) :
    SamePage n (r.received n c) c := by
  intro i hi
  unfold Replica.received
  split
  · rename_i hwal
    have := hi hwal.1
    simp only [setWal, getElem?_set]
    grind
  · rfl

variable {r : Replica H} {ps : List Nat}

/-- The pages `ps` are on their way to the replica; all others are as they have to be. -/
structure Sending (cfg : Config H) (D : Db) (ps : List Nat) (r : Replica H) : Prop where
  start : r.start = D
  committed : r.committed = none
  lower : D.nPage ≤ r.db.nPage
  upper : r.db.nPage ≤ max D.nPage cfg.origin.nPage
  mem : ∀ n ∈ ps, n ≠ cfg.lockBytePage ∧ n ≤ cfg.origin.nPage
  page : ∀ n, 1 ≤ n → n ≤ cfg.origin.nPage → n ≠ cfg.lockBytePage →
    n ∈ ps ∨ n ≤ r.db.nPage ∧ SamePage n (r.db.page n) (cfg.origin.page n)

theorem Sending.read [DecidableEq H] (hr : Sending cfg D (n :: ps) r) :
    Sending cfg D ps (r.read cfg (.page n (cfg.data cfg.origin n))) where
  start := hr.start
  committed := hr.committed
  lower := hr.lower.trans (le_max_left _ _)
  upper := max_le hr.upper (((hr.mem n mem_cons_self).2).trans (le_max_right _ _))
  mem m hm := hr.mem m (mem_cons_of_mem _ hm)
  page m h1 hN hlock := by
    simp only [Replica.read, Function.update_apply]
    by_cases hmn : m = n
    · subst hmn
      rw [if_pos rfl, Config.data, if_neg hlock]
      exact .inr ⟨le_max_right _ _, samePage_received r m _⟩
    · rw [if_neg hmn]
      refine (hr.page m h1 hN hlock).imp (fun hm => ?_) fun ⟨hle, hsame⟩ => ?_
      · exact (mem_cons.mp hm).resolve_left hmn
      · exact ⟨hle.trans (le_max_left _ _), hsame⟩

theorem Sending.le_nPage (hr : Sending cfg D [] r) (hlast : cfg.origin.nPage ≠ cfg.lockBytePage) :
    cfg.origin.nPage ≤ r.db.nPage := by
  rcases Nat.eq_zero_or_pos cfg.origin.nPage with hzero | hpos
  · omega
  · exact ((hr.page _ hpos le_rfl hlast).resolve_left (by simp)).1

theorem Sending.synced_truncated (hr : Sending cfg D [] r)
    (hlast : cfg.origin.nPage ≠ cfg.lockBytePage) :
    Synced cfg cfg.origin (r.truncated cfg.origin.nPage) := by
  have hle := hr.le_nPage hlast
  have hupper := hr.upper
  have hpage := fun n h1 hN hlock => ((hr.page n h1 hN hlock).resolve_left (by simp)).2
  unfold Replica.truncated
  rw [hr.start]
  split
  · exact ⟨rfl, hpage⟩
  · exact ⟨by omega, hpage⟩

theorem synced_commit (h : Synced cfg cfg.origin db) (hstart : r.start = D) :
    Synced cfg cfg.origin (r.commit db) ∨ Synced cfg (cfg.stamped D) (r.commit db) := by
  unfold Replica.commit
  split
  · exact .inl h
  · refine .inr ⟨h.1, fun n h1 hN hlock => ?_⟩
    have hsame := h.2 n h1 hN hlock
    simp only [Config.stamped, Function.update_apply]
    split
    · subst n
      rw [hstart]
      exact hsame.writeChangecounter _
    · exact hsame

/-- What has been committed is the same as the origin, up to what the commit itself writes, except
where a larger replica got no page. -/
def Fine (cfg : Config H) (D : Db) (r : Replica H) : Prop :=
  ∀ db, r.committed = some db → (Synced cfg cfg.origin db ∨ Synced cfg (cfg.stamped D) db) ∨
    r.ins = false ∧ cfg.origin.nPage < D.nPage

theorem fine_of_none (hr : r.committed = none) : Fine cfg D r := by
  intro db hdb
  simp [hr] at hdb

/-- Without a page nothing is cut off. -/
theorem Sending.synced_db (hr : Sending cfg D [] r) (hlast : cfg.origin.nPage ≠ cfg.lockBytePage)
    (hdb : db = r.db) : Synced cfg cfg.origin db ∨ cfg.origin.nPage < D.nPage := by
  subst hdb
  have hsynced := hr.synced_truncated hlast
  rw [Replica.truncated, hr.start] at hsynced
  split at hsynced
  · exact .inr ‹_›
  · exact .inl hsynced

theorem Sending.fine_txn [DecidableEq H] (hr : Sending cfg D [] r)
    (hlast : cfg.origin.nPage ≠ cfg.lockBytePage) :
    Fine cfg D (r.read cfg (.txn cfg.origin.nPage)) := by
  intro db hdb
  have hsynced := synced_commit (hr.synced_truncated hlast) hr.start
  have hor : db = r.db → _ := hr.synced_db hlast
  grind [Replica.read]

theorem Sending.fine_cut (hr : Sending cfg D [] r) (hlast : cfg.origin.nPage ≠ cfg.lockBytePage)
    (n : Nat) : Fine cfg D (r.cut (.txn n)) := by
  intro db hdb
  have hor : db = r.db → _ := hr.synced_db hlast
  have hnone := hr.committed
  grind [Replica.cut]

/-! ## Both sides -/

structure Idle (D : Db) (r : Replica H) : Prop where
  start : r.start = D
  db : r.db = D
  ins : r.ins = false
  committed : r.committed = none

/-- Where the two sides are in their conversation. -/
inductive Phase (cfg : Config H) (D : Db) (o : Origin) (r : Replica H) : Prop
  | finished (hr : Fine cfg D r)
    (hout : r.closed = true ∨ r.out = [] ∧ ∀ m ∈ o.out, m = .end ∨ m = .error)
  | dead (hr : r.committed = none) (ho : o.Gone)
  | doomed (hr : r.committed = none) (hout : r.out = []) (ho : o.out.head? = some .error)
  | waiting (hr : Idle D r) (hsend : r.sendHash = [])
    (ho : o.iHash = 1 ∧ o.nHash = 1 ∧ o.mxHash = 0 ∧ o.badHash = none)
    (hout : (∃ p, o.out = [.begin p cfg.origin.nPage]) ∧ r.out = [] ∨
      o.out = [] ∧ ∃ p, r.out = [.begin p])
  | hashing (L : Nat) (rows : List (Nat × Nat)) (hr : Idle D r) (hsend : r.sendHash = [])
    (hout : o.out = []) (hms : Conveys cfg D o.iHash o.nHash r.out rows)
    (hcover : Cover cfg D L (rows ++ o.badHash.getD [])) (hL : L ≤ D.nPage)
    (hmx : o.mxHash ≤ L + 1)
  | detailing (L : Nat) (ds : List (Nat × Nat)) (hr : Idle D r) (hout : r.out = [])
    (ho : o.out = ds.map (fun x => .detail x.1 x.2) ++ [.ready])
    (hcover : Cover cfg D L (r.sendHash ++ (ds ++ o.badHash.getD []))) (hL : L ≤ D.nPage)
    (hmx : o.mxHash ≤ L + 1)
  | sending (ps : List Nat) (tail : List OriginMsg) (hr : Sending cfg D ps r) (hout : r.out = [])
    (ho : o.out = ps.map (fun n => .page n (cfg.data cfg.origin n)) ++
      .txn cfg.origin.nPage :: tail)
    (htail : ∀ m ∈ tail, m = .end ∨ m = .error)

theorem Phase.fine (hp : Phase cfg D o r) : Fine cfg D r := by
  cases hp with
  | finished hr _ => exact hr
  | dead hr _ | doomed hr _ _ => exact fine_of_none hr
  | waiting hr | hashing _ _ hr | detailing _ _ hr => exact fine_of_none hr.committed
  | sending _ _ hr => exact fine_of_none hr.committed

/-- The origin stops, and may say so. -/
theorem Phase.originLoses (hl : ∀ m ∈ l, m = .error) (hp : Phase cfg D o r) :
    Phase cfg D { o with failed := true, out := o.out ++ l } r := by
  have hgone : (∀ n, OriginMsg.txn n ∉ o.out) →
      Origin.Gone { o with failed := true, out := o.out ++ l } := by
    intro ho
    refine ⟨rfl, fun n hn => ?_⟩
    rcases mem_append.mp hn with hn | hn
    · exact ho n hn
    · cases hl _ hn
  cases hp with
  | finished hr hout =>
    refine .finished hr (hout.imp_right fun ⟨hnil, hm⟩ => ⟨hnil, fun m hmem => ?_⟩)
    exact (mem_append.mp hmem).elim (hm m) fun h => .inr (hl m h)
  | dead hr ho => exact .dead hr (hgone ho.2)
  | doomed hr hout ho => exact .doomed hr hout (by simp [ho])
  | waiting hr hsend ho hout =>
    refine .dead hr.committed (hgone fun n => ?_)
    rcases hout with ⟨⟨p, hp⟩, -⟩ | ⟨hnil, -⟩ <;> simp [*]
  | hashing L rows hr hsend hout => exact .dead hr.committed (hgone (by simp [hout]))
  | detailing L ds hr hout ho => exact .dead hr.committed (hgone (by simp [ho]))
  | sending ps tail hr hout ho htail =>
    refine .sending ps (tail ++ l) hr hout (by simp [ho]) fun m hm => ?_
    exact (mem_append.mp hm).elim (htail m) fun h => .inr (hl m h)

theorem Phase.fine_cut (hlast : cfg.origin.nPage ≠ cfg.lockBytePage) (hp : Phase cfg D o r)
    (hc : r.closed = false) (hout : o.out = m :: ms) : Fine cfg D (r.cut m) := by
  cases m with
  | txn n =>
    cases hp with
    | finished hr h => simp [hc, hout] at h
    | dead hr ho => exact absurd (by simp [hout]) (ho.2 n)
    | doomed hr h ho => simp [hout] at ho
    | waiting hr hsend ho h => simp [hout] at h
    | hashing L rows hr hsend h => simp [hout] at h
    | detailing L ds hr h ho => cases ds <;> simp [hout] at ho
    | sending ps tail hr h ho htail =>
      cases ps with
      | nil => exact hr.fine_cut hlast n
      | cons => simp [hout] at ho
  | _ => exact hp.fine

theorem Cover.sorted (hA : Cover cfg D L (rows ++ A)) : Cover cfg D L (sorted rows ++ A) :=
  hA.perm ((perm_insertionSort _ rows).symm.append_right A)

theorem Cover.filter (hA : Cover cfg D L bad) :
    Cover cfg D L (Rsync.sorted (bad.filter (1 < ·.2)) ++ bad.filter (·.2 ≤ 1)) := by
  refine Cover.sorted (hA.perm ?_)
  have hnot : (fun x : Nat × Nat => decide (x.2 ≤ 1)) = fun x => !decide (1 < x.2) := by
    funext x
    grind
  rw [hnot]
  exact (filter_append_perm _ bad).symm

/-- The ranges that were noted and the pages behind them are all that is missing. -/
theorem Idle.sending (hr : Idle D r) (hcover : Cover cfg D L bad) (hmx : n ≤ L + 1)
    (hsingle : ∀ x ∈ bad, x.2 ≤ 1)
    (hps : ∀ m, m ∈ ps ↔ ((∃ c, (m, c) ∈ bad) ∨ n ≤ m) ∧ m ≠ cfg.lockBytePage ∧
      1 ≤ m ∧ m ≤ cfg.origin.nPage) : Sending cfg D ps r where
  start := hr.start
  committed := hr.committed
  lower := by rw [hr.db]
  upper := by rw [hr.db]; exact le_max_left _ _
  mem m hm := ⟨((hps m).mp hm).2.1, ((hps m).mp hm).2.2.2⟩
  page m h1 hN hlock := by
    rw [hr.db]
    by_cases hmL : m ≤ L
    · rcases hcover.page m h1 hN hmL with ⟨hle, hdata⟩ | ⟨x, hx, hlow, hhigh⟩
      · rw [Config.data, Config.data, if_neg hlock, if_neg hlock] at hdata
        exact .inr ⟨hle, fun i _ => by rw [hdata]⟩
      · have := hsingle x hx
        obtain rfl : x.1 = m := by omega
        exact .inl ((hps _).mpr ⟨.inl ⟨_, hx⟩, hlock, h1, hN⟩)
    · exact .inl ((hps m).mpr ⟨.inr (by omega), hlock, h1, hN⟩)

theorem phase_start (p p' : Nat) (D : Db) (wal spilled : Bool) :
    Phase cfg D (start cfg w p p' D wal spilled).origin
      (start cfg w p p' D wal spilled).replica := by
  simp only [start]
  refine runSql_of (P := fun o => Phase cfg D o _) (fun _ => ?_) fun _ => ?_
  · exact .waiting ⟨rfl, rfl, rfl, rfl⟩ rfl ⟨rfl, rfl, rfl, rfl⟩ (.inl ⟨⟨p, rfl⟩, rfl⟩)
  · exact .dead rfl (gone_reportError (by simp))

variable [DecidableEq H]

theorem Phase.originReads (hw : ∀ k q, Unnoticed cfg q → w k q = .ok)
    (hsize : cfg.origin.nPage < 2 ^ 31)
    (hp : Phase cfg D o r) (hf : o.failed = false) (hm : r.out = m :: ms) :
    Phase cfg D (o.read cfg w m) { r with out := ms } := by
  cases hp with
  | finished hr hout => exact .finished hr (.inl (hout.resolve_right (by simp [hm])))
  | dead hr ho => exact absurd ho.1 (by simp [hf])
  | doomed hr hout | detailing L ds hr hout | sending ps tail hr hout => simp [hm] at hout
  | waiting hr hsend ho hout =>
    obtain ⟨hnil, p, hout⟩ := hout.resolve_left (by simp [hm])
    rw [hm] at hout
    cases hout
    simp only [Origin.read]
    split
    · exact .waiting { hr with } hsend ho (.inl ⟨⟨p, by simp [hnil]⟩, rfl⟩)
    · exact .dead hr.committed (gone_reportError (by simp [hnil]))
  | hashing L rows hr hsend hout hms hcover hL hmx =>
    have hidle : Idle D { r with out := ms } := { hr with }
    rw [hm] at hms
    cases hms with
    | ready =>
      cases readied_onReady hw hsize hout hf with
      | gone hgone => exact .dead hr.committed hgone
      | error herr => exact .doomed hr.committed rfl herr
      | detail bad hbad hmx' hbad' hout' =>
        refine .detailing L _ hidle rfl hout' ?_ hL (hmx'.trans_le hmx)
        rw [hbad] at hcover
        simpa [Origin.read, hsend, hbad'] using hcover.filter
      | pages bad ps hbad hsingle hps hout' =>
        rw [hbad] at hcover
        exact .sending ps [.end] (hidle.sending hcover hmx hsingle hps) rfl hout' (by simp)
    | config _ _ hms => exact .hashing L rows hidle hsend hout hms hcover hL hmx
    | @hash f c h ms rows hh hms =>
      have hcover : Cover cfg D L ((o.iHash, o.nHash) :: (rows ++ o.badHash.getD [])) := hcover
      have hchecked : Checked cfg h o (o.onHash cfg w h) := checked_onHash hout
      rcases hchecked with hgone | ⟨hout', hi, hn, hmx', hbad⟩
      · exact .dead hr.committed hgone
      · refine .hashing L rows hidle hsend hout' ?_ ?_ hL ?_
        · simpa only [Origin.read, hi, hn] using hms
        · rcases hbad with hbad | ⟨hbad, hmatch⟩
          · simpa only [Origin.read, hbad] using hcover.perm perm_middle.symm
          · simpa only [Origin.read, hbad] using hcover.matched hmatch hh
        · simp only [Origin.read, hmx']
          exact max_le hmx (hcover.row _ mem_cons_self).2.2

theorem Phase.replicaReads (hlast : cfg.origin.nPage ≠ cfg.lockBytePage) (hp : Phase cfg D o r)
    (hc : r.closed = false) (hm : o.out = m :: ms) :
    Phase cfg D { o with out := ms } (r.read cfg m) := by
  cases hp with
  | finished hr hout =>
    obtain ⟨hnil, hout⟩ := hout.resolve_left (by simp [hc])
    rcases hout m (by simp [hm]) with rfl | rfl <;> exact .finished hr (.inl rfl)
  | dead hr ho =>
    have hms : ∀ n, OriginMsg.txn n ∉ ms := fun n hn => ho.2 n (by simp [hm, hn])
    refine .dead ?_ ⟨ho.1, hms⟩
    cases m with
    | txn n => exact absurd (by simp [hm]) (ho.2 n)
    | begin p N =>
      simp only [Replica.read]
      split <;> exact hr
    | _ => exact hr
  | doomed hr hout ho =>
    obtain rfl : m = .error := by simpa [hm] using ho
    exact .finished (fine_of_none hr) (.inl rfl)
  | waiting hr hsend ho hout =>
    obtain ⟨⟨p, hp⟩, hnil⟩ := hout.resolve_right (by simp [hm])
    rw [hm] at hp
    cases hp
    simp only [Replica.read]
    split
    · exact .waiting ⟨hr.1, hr.2, rfl, hr.4⟩ hsend ho (.inr ⟨rfl, r.protocol, by simp [hnil]⟩)
    · obtain ⟨L, hL, hcover⟩ : ∃ L ≤ D.nPage, Cover cfg D L (firstRows p D.nPage) :=
        exists_cover_firstRows p D
      obtain ⟨hi, hn, hmx, hbad⟩ := ho
      refine .hashing L (sorted (firstRows p D.nPage)) ⟨hr.1, hr.1, rfl, hr.4⟩ hsend rfl ?_ ?_ hL ?_
      · simp only [hnil, hr.start, hi, hn, nil_append]
        refine conveys_hashMessages (fun x hx => ?_) (.inl ⟨rfl, rfl⟩)
        have := hcover.row x (mem_sorted.mp hx)
        omega
      · simpa [hbad] using Cover.sorted (A := []) (by simpa using hcover)
      · simp [hmx]
  | hashing L rows hr hsend hout hms hcover hL hmx => simp [hm] at hout
  | detailing L ds hr hout ho hcover hL hmx =>
    rw [hm] at ho
    cases ds with
    | nil =>
      cases ho
      refine .hashing L (sorted r.sendHash) { hr with } rfl rfl ?_ hcover.sorted hL hmx
      simp only [Replica.read, hout, hr.db, nil_append]
      have hrow := fun x hx => hcover.row x (mem_append_left _ (mem_sorted.mp hx))
      refine conveys_hashMessages (fun x hx => ?_) (.inr fun x hx => ?_)
      · have := hrow x hx
        omega
      · have := hrow x hx
        omega
    | cons x ds =>
      cases ho
      have hsub := (hcover.perm perm_middle).subdivide
      refine .detailing L ds { hr with } hout rfl ?_ hL hmx
      simp only [Replica.read, hsub.replaceRows, append_assoc]
      exact hsub
  | sending ps tail hr hout ho htail =>
    rw [hm] at ho
    cases ps with
    | nil =>
      cases ho
      exact .finished (hr.fine_txn hlast) (.inr ⟨hout, htail⟩)
    | cons n ps =>
      cases ho
      exact .sending ps tail hr.read hout rfl htail

/-- One event keeps the conversation in one of its phases. -/
theorem Phase.step (hw : ∀ k q, Unnoticed cfg q → w k q = .ok) (hsize : cfg.origin.nPage < 2 ^ 31)
    (hlast : cfg.origin.nPage ≠ cfg.lockBytePage) (hp : Phase cfg D s.origin s.replica)
    (hstep : step cfg w s e = some s') : Phase cfg D s'.origin s'.replica := by
  cases e with
  | originReads =>
    simp only [Rsync.step] at hstep
    split at hstep
    · cases hstep
      exact hp.originReads hw hsize ‹_› ‹_›
    · cases hstep
  | replicaReads =>
    simp only [Rsync.step] at hstep
    split at hstep
    · cases hstep
      exact hp.replicaReads hlast ‹_› ‹_›
    · cases hstep
  | originLoses reports =>
    cases hstep
    cases reports with
    | false => simpa using hp.originLoses (l := []) (by simp)
    | true =>
      refine hp.originLoses (l := if cfg.isRemote then [.error] else []) ?_
      split <;> simp
  | replicaLoses within =>
    simp only [Rsync.step] at hstep
    split at hstep
    · cases hstep
      refine .finished (hp.fine_cut hlast ‹_› ‹_›) (.inl ?_)
      unfold Replica.cut
      split <;> rfl
    · cases hstep
      exact .finished hp.fine (.inl rfl)

/-- A replica that commits is the same as the origin, up to what the commit itself writes to page 1,
and wholly if page 1 of the origin has those bytes already. -/
theorem committed_synced (hw : ∀ k q, Unnoticed cfg q → w k q = .ok)
    (hsize : cfg.origin.nPage < 2 ^ 31) (hlast : cfg.origin.nPage ≠ cfg.lockBytePage) {p p' : Nat}
    {wal spilled : Bool} {events : List Event} {s : Sys H}
    (hrun : Run.exec (step cfg w) (start cfg w p p' D wal spilled) events = some s)
    (hpage : D.nPage ≤ cfg.origin.nPage ∨ s.replica.ins = true)
    (hdb : s.replica.committed = some db) :
    (Synced cfg cfg.origin db ∨ Synced cfg (cfg.stamped D) db) ∧
      (writeChangecounter (D.page 1) (cfg.origin.page 1) = cfg.origin.page 1 →
        Synced cfg cfg.origin db) := by
  have hphase : Phase cfg D s.origin s.replica :=
    Run.exec_invariant_of_forall (fun _ _ _ hp hstep => Phase.step hw hsize hlast hp hstep)
      (phase_start p p' D wal spilled) hrun
  have hsynced : Synced cfg cfg.origin db ∨ Synced cfg (cfg.stamped D) db := by
    rcases hphase.fine db hdb with hsynced | ⟨hins, hlt⟩
    · exact hsynced
    · rcases hpage with hle | hpage
      · omega
      · simp [hins] at hpage
  refine ⟨hsynced, fun hsame => ?_⟩
  have hstamped : cfg.stamped D = cfg.origin := by
    rw [Config.stamped, hsame, Function.update_eq_self]
  simpa [hstamped] using hsynced

/-- Contents are their own hashes here. The replica's counter is zero before it commits. -/
def plainConfig (nPage : Nat) : Config (List Content) where
  szPage := 512
  hash c := [c]
  agghash := flatten
  hash_injective _ _ h := by simpa using h
  agghash_injective l l' h := by simpa [← flatMap_def] using h
  isRemote := false
  origin := ⟨nPage, fun n => put4byte (replicate 28 n.toUInt8) 24 1⟩

def reading : List Event :=
  [.replicaReads, .originReads, .originReads, .originReads, .replicaReads, .replicaReads]

def twoPages : Config (List Content) := plainConfig 2

def noPages : Config (List Content) := plainConfig 0

def filled (nPage : Nat) (b : UInt8) : Db := ⟨nPage, fun _ => replicate 28 b⟩

theorem committed_synced_plain : ∃ s db,
    Run.exec (step twoPages fun _ _ => .ok)
        (start twoPages (fun _ _ => .ok) 1 1 (filled 2 0) false false)
        (reading ++ [.replicaReads]) = some s ∧
      s.replica.committed = some db ∧ Synced twoPages twoPages.origin db := by
  obtain ⟨s, db, hrun, hdb⟩ : ∃ s db, Run.exec (step twoPages fun _ _ => .ok)
          (start twoPages (fun _ _ => .ok) 1 1 (filled 2 0) false false)
          (reading ++ [.replicaReads]) = some s ∧
        s.replica.committed = some db := ⟨_, _, rfl, rfl⟩
  exact ⟨s, db, hrun, hdb,
    (committed_synced (fun _ _ _ => rfl) (by decide) (by decide) hrun (.inl le_rfl) hdb).2 rfl⟩

/-- The first page to be sent cannot be read. -/
def unreadable (_ : Nat) (q : Request) : Answer := if q = .pageRow 0 then .failure else .ok

/-- A page that the origin cannot read is left out, and the replica commits. So it does if the
origin is empty, without truncation. A commit leaves its own change counter on page 1. -/
theorem not_committed_synced :
    (∃ s db,
      Run.exec (step twoPages unreadable) (start twoPages unreadable 1 1 (filled 2 0) false false)
          (reading.take 5) = some s ∧
        s.replica.committed = some db ∧ ¬Synced twoPages twoPages.origin db) ∧
    (∃ s db,
      Run.exec (step noPages fun _ _ => .ok)
          (start noPages (fun _ _ => .ok) 1 1 (filled 1 1) false false)
          [.replicaReads, .originReads, .originReads, .replicaReads] = some s ∧
        s.replica.committed = some db ∧ ¬Synced noPages noPages.origin db) ∧
    ∃ s db,
      Run.exec (step twoPages fun _ _ => .ok)
          (start twoPages (fun _ _ => .ok) 1 1 (filled 2 1) false false)
          (reading ++ [.replicaReads]) = some s ∧
        s.replica.committed = some db ∧ ¬Synced twoPages twoPages.origin db := by
  refine ⟨⟨_, _, rfl, rfl, fun h => ?_⟩, ⟨_, _, rfl, rfl, fun h => ?_⟩,
    ⟨_, _, rfl, rfl, fun h => ?_⟩⟩
  · have hbyte := h.2 2 (by decide) (by decide) (by decide) 0 (by decide)
    revert hbyte
    decide
  · exact absurd h.1 (by decide)
  · have hbyte := h.2 1 (by decide) (by decide) (by decide) 24 (by decide)
    revert hbyte
    decide

end SqlCipher.Rsync
