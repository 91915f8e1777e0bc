import Stratosync.Foundations.Edits
import Stratosync.Fuse.FreshHeaders

/-!
# Writes and truncations

Calls of `handle_write` and of `setattr` with a size on one file, each run to its end, and the
content the file has between them. `KeepsContent` says that after each call the local bytes are the
content with the call's edit applied; `keepsContent_iff` says that this holds exactly in the
sequences whose calls start from the content, which a call on a row without local data does not: it
works on what an outdated version left at the cache path, or on an empty file.
-/

namespace Stratosync

open Foundations Foundations.Edits Foundations.Runs

/-! ## The calls -/

/-- A call, with what its update of the database meets. -/
inductive ContentCall
  | write (fh offset : ℕ) (data : Bytes) (env : Env)
  | truncate (size : ℕ) (env : Env)
  deriving DecidableEq, Repr

namespace ContentCall

/-- A call on the file `i` that succeeds. -/
def serve (m : Mount) (i : Inode) (w : World) : ContentCall → Option World
  | write fh offset data env =>
    if (w.openFiles fh).any fun f => f.inode = i then
      match handleWrite w fh offset data with
      | (.ok (), w') => w'.fuse.map fun c => c.tick w' env
      | (.error _, _) => none
    else none
  | truncate size env =>
    match handleSetattr m w i size with
    | (.ok (), w') =>
      w'.fuse.bind fun c => if c.answered w'.db env then some (c.tick w' env) else none
    | (.error _, _) => none

/-- What the call makes of a content. -/
def edit : ContentCall → Bytes → Bytes
  | write _ offset data _, b => writeAt b offset data
  | truncate size _, b => setLen b size

end ContentCall

/-- The calls, with the content as a history. -/
abbrev contentStep (m : Mount) (i : Inode) : World × Bytes → ContentCall → Option (World × Bytes) :=
  withHistory (ContentCall.serve m i) fun _ c _ b => c.edit b

/-- The bytes of the cache file of a row with local data. -/
def localBytes (w : World) (i : Inode) : Option Bytes :=
  (w.db.getByInode i).bind fun r =>
    if r.status.hasLocalData then r.cachePath.bind w.fs.files else none

/-- The row of the file `i` holds the content. -/
def HasContent (H : ObjectVersions) (i : Inode) (x : World × Bytes) : Prop :=
  ∃ r, x.1.db.getByInode i = some r ∧ r.kind = .file ∧ Holds x.1 H r x.2

/-- A file, with its row and its content. -/
structure CurrentFile where
  mount : Mount
  world : World
  versions : ObjectVersions
  inode : Inode
  content : Bytes
  current : HasContent versions inode (world, content)

/-- **After each call that succeeds the local bytes are the edited content.** -/
def CurrentFile.KeepsContent (f : CurrentFile) (calls : List ContentCall) : Prop :=
  Along (contentStep f.mount f.inode) (fun _ _ x' => localBytes x'.1 f.inode = some x'.2)
    (f.world, f.content) calls

/-! ## The condition -/

/-- What is at the cache path of the row, if it has one. -/
def FileEntry.cachedBytes (r : FileEntry) (fs : CacheFs) : Bytes :=
  (r.cachePath.bind fs.files).getD []

/-- The files agree on what a write keeps: the bytes outside its range, and the length where it does
not reach the end. -/
def AgreeOutside (b b' : Bytes) (offset : ℕ) (data : Bytes) : Prop :=
  if data = [] then b = b'
  else max b.length (offset + data.length) = max b'.length (offset + data.length) ∧
    ∀ k, k < offset ∨ offset + data.length ≤ k → b.getD k 0 = b'.getD k 0

/-- **A call starts from the content.** A truncation finds the content at the cache path, up to the
new size. A write goes to the cache path of the row, or changes nothing; and where the row has no
local data, it finds there the content outside its range and the row can be marked. -/
def StartsFromContent (i : Inode) (x : World × Bytes) : ContentCall → Prop
  | .truncate size _ => ∀ r ∈ x.1.db.getByInode i,
      r.status.hasLocalData = true ∨ ∀ k < size, (r.cachedBytes x.1.fs).getD k 0 = x.2.getD k 0
  | .write fh offset data env => ∀ r ∈ x.1.db.getByInode i, ∀ f ∈ x.1.openFiles fh,
      if r.status.hasLocalData = true then
        r.cachePath = some f.cachePath ∨ writeAt x.2 offset data = x.2
      else env.fault = false ∧ ∃ p b, r.cachePath = some p ∧ x.1.fs.files p = some b ∧
        if f.cachePath = p then AgreeOutside b x.2 offset data
        else b = writeAt x.2 offset data

variable {m : Mount} {w w' : World} {H : ObjectVersions} {i : Inode} {r : FileEntry} {b : Bytes}

/-! ## The edits -/

theorem setLen_eq_iff {b b' : Bytes} {n : ℕ} :
    setLen b n = setLen b' n ↔ ∀ k < n, b.getD k 0 = b'.getD k 0 :=
  resize_eq_iff

theorem writeAt_eq_iff {b b' : Bytes} {offset : ℕ} {data : Bytes} :
    writeAt b offset data = writeAt b' offset data ↔ AgreeOutside b b' offset data := by
  rw [AgreeOutside]
  split
  · rename_i hdata
    rw [hdata, writeAt, if_pos rfl, writeAt, if_pos rfl]
  · exact overwrite_eq_iff ‹_›

/-! ## What a call does -/

theorem localBytes_of_local (hr : w.db.getByInode i = some r) (hl : r.status.hasLocalData = true) :
    localBytes w i = r.cachePath.bind w.fs.files := by
  rw [localBytes, hr, Option.bind_some, if_pos hl]

theorem localBytes_of_not_local (hr : w.db.getByInode i = some r)
    (hl : r.status.hasLocalData ≠ true) : localBytes w i = none := by
  rw [localBytes, hr, Option.bind_some, if_neg hl]

theorem hasContent_of_localBytes (hr : w.db.getByInode i = some r) (hk : r.kind = .file)
    (h : localBytes w i = some b) : HasContent H i (w, b) := by
  by_cases hl : r.status.hasLocalData = true
  · rw [localBytes_of_local hr hl] at h
    obtain ⟨p, hp, hb⟩ := Option.bind_eq_some_iff.1 h
    exact ⟨r, hr, hk, by rw [Holds, if_pos hl]; exact ⟨p, hp, hb⟩⟩
  · rw [localBytes_of_not_local hr hl] at h
    cases h

theorem db_tick_of_fault {env : Env} (hf : env.fault = true) (c : FuseCall) :
    (c.tick w env).db = w.db := by
  have hnone : ∀ d, World.tryDb env d = none := fun d => by rw [World.tryDb, if_pos hf]
  cases c with
  | write i n => simp [FuseCall.tick, World.logDb, World.enqueue, hnone]
  | setattr i n cp => simp [FuseCall.tick, hnone]

theorem fs_tick (c : FuseCall) (env : Env) : (c.tick w env).fs = w.fs := by
  obtain ⟨_, _, h⟩ := fuseCall_tick_eq w env c
  rw [h]

/-- What the file part of a write leaves. -/
theorem handleWrite_spec {w : World} {fh offset : ℕ} {data : Bytes}
    (h : (handleWrite w fh offset data).1 = .ok ()) :
    ∃ f old, w.openFiles fh = some f ∧ w.fs.files f.cachePath = some old ∧
      (handleWrite w fh offset data).2 = { w with
        fs := w.fs.put f.cachePath (writeAt old offset data)
        fuse := some (.write f.inode (writeAt old offset data).length) } := by
  unfold handleWrite at h ⊢
  cases hf : w.openFiles fh with
  | none =>
    rw [hf] at h
    cases h
  | some f =>
    cases hold : w.fs.files f.cachePath with
    | none =>
      simp only [hf, CacheFs.write, hold, Option.map_none] at h
      cases h
    | some old =>
      refine ⟨f, old, rfl, hold, ?_⟩
      simp [CacheFs.write, hold, CacheFs.files_put]

/-- A write that fails leaves everything as it is. -/
theorem handleWrite_eq_of_error {w : World} {fh offset : ℕ} {data : Bytes} {e : Errno}
    (h : (handleWrite w fh offset data).1 = .error e) : (handleWrite w fh offset data).2 = w := by
  unfold handleWrite at h ⊢
  split
  · rfl
  · split
    · rfl
    · rename_i hf _ _ hw
      simp only [hf, hw] at h
      cases h

/-- What the file part of a truncation leaves: the file at the cache path of the row, which gets one
if it has none, has the new size. -/
theorem handleSetattr_spec {w : World} {n : ℕ} (h : (handleSetattr m w i n).1 = .ok ()) :
    ∃ r p cp fs, w.db.getByInode i = some r ∧ p = r.cachePath.getD (m.derivedPath r) ∧
      (cp <|> r.cachePath) = some p ∧
      (∀ q, fs.files q =
        if q = p then some (setLen (r.cachedBytes w.fs) n) else w.fs.files q) ∧
      (handleSetattr m w i n).2 = { w with fs, fuse := some (.setattr i n cp) } := by
  unfold handleSetattr at h ⊢
  cases hr : w.db.getByInode i with
  | none =>
    rw [hr] at h
    cases h
  | some r =>
    cases hcp : r.cachePath with
    | some p =>
      cases hw : w.fs.write p fun old => setLen old n with
      | none =>
        simp only [hr, hcp, hw] at h
        cases h
      | some fs =>
        obtain ⟨old, hold, hfiles⟩ := CacheFs.files_of_write hw
        refine ⟨r, p, none, fs, rfl, by rw [hcp, Option.getD_some], by rw [hcp]; rfl, fun q => ?_,
          by simp only [hcp, hw]⟩
        rw [hfiles, FileEntry.cachedBytes, hcp, Option.bind_some, hold, Option.getD_some]
    | none =>
      cases hdir : w.fs.createDirAll (m.derivedPath r).dropLast with
      | none =>
        simp only [hr, hcp, hdir] at h
        cases h
      | some fs₁ =>
        cases hcr : fs₁.create (m.derivedPath r) with
        | none =>
          simp only [hr, hcp, hdir, hcr] at h
          cases h
        | some fs₂ =>
          refine ⟨r, _, some (m.derivedPath r), fs₂.put (m.derivedPath r) (setLen [] n), rfl,
            by rw [hcp, Option.getD_none], rfl, fun q => ?_, by simp only [hcp, hdir, hcr]⟩
          rw [CacheFs.files_put, CacheFs.files_of_create hcr, CacheFs.files_of_createDirAll hdir,
            FileEntry.cachedBytes, hcp, Option.bind_none, Option.getD_none]
          split <;> rfl

/-- A truncation that fails leaves the index and the files as they are. -/
theorem handleSetattr_eq_of_error {w : World} {n : ℕ} {e : Errno}
    (h : (handleSetattr m w i n).1 = .error e) :
    (handleSetattr m w i n).2.db = w.db ∧ (handleSetattr m w i n).2.fuse = w.fuse ∧
      (handleSetattr m w i n).2.fs.files = w.fs.files := by
  unfold handleSetattr at h ⊢
  cases hr : w.db.getByInode i with
  | none => exact ⟨rfl, rfl, rfl⟩
  | some r =>
    cases hcp : r.cachePath with
    | some p =>
      cases hw : w.fs.write p fun old => setLen old n with
      | none => simp only [hcp, hw, and_self]
      | some fs =>
        simp only [hr, hcp, hw] at h
        cases h
    | none =>
      cases hdir : w.fs.createDirAll (m.derivedPath r).dropLast with
      | none => simp only [hcp, hdir, and_self]
      | some fs₁ =>
        cases hcr : fs₁.create (m.derivedPath r) with
        | none =>
          simp only [hcp, hdir, hcr, true_and]
          exact CacheFs.files_of_createDirAll hdir
        | some fs₂ =>
          simp only [hr, hcp, hdir, hcr] at h
          cases h

/-- A request in progress that has a path for its row marks it, unless the call fails. -/
theorem rowMapped_of_path {c : FuseCall} {env : Env} {p : PathBuf} (hf : env.fault = false)
    (hr : w.db.getByInode c.inode = some r) (hp : (c.cachePath <|> r.cachePath) = some p) :
    Db.RowMapped w.db (c.tick w env).db c.inode c.mark := by
  have hsome : ∀ d : Option Db, d.isSome = true → (World.tryDb env d).isSome = true := by
    intro d hd
    rwa [World.tryDb, if_neg (by rw [hf]; exact Bool.false_ne_true)]
  refine rowMapped_of_answer ?_ hf hr hp
  obtain ⟨j, n⟩ | ⟨j, n, _ | cp⟩ := c
  · rfl
  · refine hsome _ (Db.setDirtySize_isSome fun r₀ hr₀ => ?_)
    obtain rfl := Option.some.inj (hr.symm.trans hr₀)
    exact Option.isSome_iff_exists.2 ⟨p, hp⟩
  · exact hsome _ Db.setDirtyWithCachePath_isSome

/-- A write changes the file of its handle; the row is marked, unless the update fails. -/
theorem serve_write {fh offset : ℕ} {data : Bytes} {env : Env}
    (h : (ContentCall.write fh offset data env).serve m i w = some w')
    (hr : w.db.getByInode i = some r) :
    ∃ f old, w.openFiles fh = some f ∧ w.fs.files f.cachePath = some old ∧
      (∀ q, w'.fs.files q =
        if q = f.cachePath then some (writeAt old offset data) else w.fs.files q) ∧
      ∃ r', w'.db.getByInode i = some r' ∧ r'.kind = r.kind ∧ r'.cachePath = r.cachePath ∧
        (r' = r ∧ (env.fault = true ∨ r.cachePath = none) ∨
          env.fault = false ∧ r'.status = .dirty) := by
  simp only [ContentCall.serve] at h
  split at h
  case isFalse => cases h
  rename_i hinode
  split at h
  case h_2 => cases h
  rename_i w₁ hres
  obtain ⟨f, old, hf, hold, hw⟩ := handleWrite_spec (congrArg Prod.fst hres)
  have hi : f.inode = i := by simpa [hf] using hinode
  subst hi
  rw [show w₁ = _ from (congrArg Prod.snd hres).symm.trans hw, Option.map_some,
    Option.some.injEq] at h
  subst h
  refine ⟨f, old, hf, hold, fun q => ?_, ?_⟩
  · rw [fs_tick]
    exact CacheFs.files_put ..
  · cases hfault : env.fault with
    | true =>
      rw [db_tick_of_fault hfault]
      exact ⟨r, hr, rfl, rfl, .inl ⟨rfl, .inl rfl⟩⟩
    | false =>
      obtain hrows | ⟨hdb, hwhy⟩ := rows_of_fuseCall { w with
        fs := w.fs.put f.cachePath (writeAt old offset data)
        fuse := some (.write f.inode (writeAt old offset data).length) }
          env (.write f.inode (writeAt old offset data).length)
      · have hself := hrows.self.trans (congrArg (Option.map _) hr)
        exact ⟨_, hself, rfl, rfl, .inr ⟨rfl, rfl⟩⟩
      · rw [hdb]
        obtain hwhy | ⟨r₀, hr₀, hnone⟩ := hwhy
        · rw [hfault] at hwhy
          cases hwhy
        · obtain rfl := Option.some.inj (hr.symm.trans hr₀)
          exact ⟨r, hr, rfl, rfl, .inl ⟨rfl, .inr hnone⟩⟩

/-- A truncation leaves a row with local data, and what was at its cache path cut or extended. -/
theorem serve_truncate {n : ℕ} {env : Env}
    (h : (ContentCall.truncate n env).serve m i w = some w') (hr : w.db.getByInode i = some r) :
    ∃ p r', w'.db.getByInode i = some r' ∧ r'.kind = r.kind ∧ r'.status = .dirty ∧
      r'.cachePath = some p ∧ w'.fs.files p = some (setLen (r.cachedBytes w.fs) n) := by
  simp only [ContentCall.serve] at h
  split at h
  case h_2 => cases h
  rename_i w₁ hres
  obtain ⟨r₀, p, cp, fs, hr₀, -, hp, hfiles, hw⟩ := handleSetattr_spec (congrArg Prod.fst hres)
  obtain rfl := Option.some.inj (hr.symm.trans hr₀)
  rw [show w₁ = _ from (congrArg Prod.snd hres).symm.trans hw, Option.bind_some] at h
  split at h
  case isFalse => cases h
  rename_i ha
  have hfault : env.fault = false := by
    cases hf : env.fault with
    | false => rfl
    | true => cases cp <;> simp [FuseCall.answered, World.tryDb, hf] at ha
  rw [← Option.some.inj h]
  have hrows := rowMapped_of_path (w := { w with fs, fuse := some (.setattr i n cp) })
    (c := .setattr i n cp) hfault hr hp
  refine ⟨p, _, hrows.self.trans (congrArg (Option.map _) hr), rfl, rfl, hp, ?_⟩
  rw [fs_tick]
  exact (hfiles p).trans (if_pos rfl)

/-- **A call that succeeds leaves the edited content exactly when it starts from the content.** -/
theorem localBytes_of_serve {c : ContentCall} (hx : HasContent H i (w, b))
    (h : c.serve m i w = some w') :
    localBytes w' i = some (c.edit b) ↔ StartsFromContent i (w, b) c := by
  obtain ⟨r, hr, -, hb⟩ := hx
  simp only [Holds] at hb
  cases c with
  | truncate n env =>
    obtain ⟨p, r', hr', -, hs, hp, hfile⟩ := serve_truncate h hr
    rw [localBytes_of_local hr' (by rw [hs]; rfl), hp, Option.bind_some, hfile, Option.some.injEq,
      ContentCall.edit, setLen_eq_iff, StartsFromContent, hr]
    constructor
    · rintro heq r₀ ⟨⟩
      exact .inr heq
    · intro hstart
      rcases hstart r rfl with hl | heq
      · rw [if_pos hl] at hb
        obtain ⟨q, hq, hold⟩ := hb
        intro k _
        rw [FileEntry.cachedBytes, hq, Option.bind_some, hold, Option.getD_some]
      · exact heq
  | write fh offset data env =>
    obtain ⟨f, old, hf, hold, hfiles, r', hr', -, hp', hmark⟩ := serve_write h hr
    have hiff : StartsFromContent i (w, b) (.write fh offset data env) ↔
        if r.status.hasLocalData = true then
          r.cachePath = some f.cachePath ∨ writeAt b offset data = b
        else env.fault = false ∧ ∃ p b', r.cachePath = some p ∧ w.fs.files p = some b' ∧
          if f.cachePath = p then AgreeOutside b' b offset data
          else b' = writeAt b offset data := by
      rw [StartsFromContent, hr, hf]
      exact ⟨fun h => h r rfl f rfl, fun h r₀ hr₀ f₀ hf₀ => by cases hr₀; cases hf₀; exact h⟩
    rw [hiff, ContentCall.edit]
    by_cases hl : r.status.hasLocalData = true
    · rw [if_pos hl] at hb ⊢
      obtain ⟨p, hp, hbytes⟩ := hb
      have hl' : r'.status.hasLocalData = true := by
        rcases hmark with ⟨rfl, -⟩ | ⟨-, hs⟩
        · exact hl
        · rw [hs]
          rfl
      rw [localBytes_of_local hr' hl', hp', hp, Option.bind_some, hfiles, Option.some.injEq]
      split
      · rename_i hpf
        have hsame : old = b := Option.some.inj (hold.symm.trans (hpf ▸ hbytes))
        rw [hsame]
        exact iff_of_true rfl (.inl hpf)
      · rename_i hpf
        rw [hbytes, Option.some.injEq]
        exact ⟨fun h => .inr h.symm, fun h => (h.resolve_left hpf).symm⟩
    · rw [if_neg hl]
      rcases hmark with ⟨rfl, hwhy⟩ | ⟨hfault, hs⟩
      · -- the row was not marked, and has no local data now
        rw [localBytes_of_not_local hr' hl]
        refine iff_of_false (Option.some_ne_none _).symm ?_
        rintro ⟨hfault, p, _, hp, -⟩
        rcases hwhy with hwhy | hwhy
        · rw [hfault] at hwhy
          cases hwhy
        · rw [hp] at hwhy
          cases hwhy
      · rw [localBytes_of_local hr' (by rw [hs]; rfl), hp']
        cases hp : r.cachePath with
        | none =>
          refine iff_of_false (Option.some_ne_none _).symm ?_
          rintro ⟨-, p, _, hp', -⟩
          cases hp'
        | some p =>
          rw [Option.bind_some, hfiles]
          by_cases hpf : p = f.cachePath
          · rw [if_pos hpf, Option.some.injEq, writeAt_eq_iff]
            constructor
            · exact fun hagree => ⟨hfault, p, old, rfl, hpf ▸ hold, by rwa [if_pos hpf.symm]⟩
            · rintro ⟨-, q, b', ⟨⟩, hb', hagree⟩
              rw [if_pos hpf.symm] at hagree
              have hsame : old = b' := Option.some.inj (hold.symm.trans (hpf ▸ hb'))
              rwa [hsame]
          · rw [if_neg hpf]
            constructor
            · intro hfile
              exact ⟨hfault, p, _, rfl, hfile, by rw [if_neg (Ne.symm hpf)]⟩
            · rintro ⟨-, q, b', ⟨⟩, hb', hagree⟩
              rw [if_neg (Ne.symm hpf)] at hagree
              rw [hb', hagree]

/-- The row of a file stays the row of a file. -/
theorem kind_of_serve {c : ContentCall} (hr : w.db.getByInode i = some r)
    (h : c.serve m i w = some w') : ∃ r', w'.db.getByInode i = some r' ∧ r'.kind = r.kind := by
  cases c with
  | truncate n env =>
    obtain ⟨_, r', hr', hk, -⟩ := serve_truncate h hr
    exact ⟨r', hr', hk⟩
  | write fh offset data env =>
    obtain ⟨_, _, -, -, -, r', hr', hk, -⟩ := serve_write h hr
    exact ⟨r', hr', hk⟩

/-- **In a sequence of calls every one leaves the content edited exactly when every one starts from
the content.** -/
theorem CurrentFile.keepsContent_iff (f : CurrentFile) (calls : List ContentCall) :
    f.KeepsContent calls ↔
      Along (contentStep f.mount f.inode) (fun x c _ => StartsFromContent f.inode x c)
        (f.world, f.content) calls := by
  refine along_congr_of_inv (I := HasContent f.versions f.inode) ?_ ?_ calls f.current
  · rintro ⟨w, b⟩ c ⟨w', b'⟩ hx hstep
    obtain ⟨hserve, rfl⟩ := withHistory_eq_some.1 hstep
    exact localBytes_of_serve hx hserve
  · rintro ⟨w, b⟩ c ⟨w', b'⟩ ⟨r, hr, hk, -⟩ hstep hlocal
    obtain ⟨hserve, rfl⟩ := withHistory_eq_some.1 hstep
    obtain ⟨r', hr', hk'⟩ := kind_of_serve hr hserve
    exact hasContent_of_localBytes hr' (hk'.trans hk) hlocal

/-- Another client's file is listed and truncated before it was opened. -/
theorem not_keepsContent_listedFile :
    ¬∀ (f : CurrentFile) (calls : List ContentCall), f.KeepsContent calls := by
  intro h
  obtain ⟨w, -, hrow, w', hserve, hzeros⟩ : ∃ w,
      run (step sampleMount) (World.init sampleMount 0)
        [foreignVersion ['a'] [1, 2, 3] ['v'], .poll (reportedFile ['a'] 3 ['v'])] = some w ∧
      HasContent (fun _ => [⟨[1, 2, 3], some ['v'], 0, none⟩]) 2 (w, [1, 2, 3]) ∧ ∃ w',
        (ContentCall.truncate 2 .fine).serve sampleMount 2 w = some w' ∧
          localBytes w' 2 = some [0, 0] :=
    ⟨_, rfl, ⟨_, rfl, rfl, _, List.mem_singleton.2 rfl, rfl, rfl, rfl⟩, _, rfl, rfl⟩
  have hstep : contentStep sampleMount 2 (w, [1, 2, 3]) (.truncate 2 .fine) =
      some (w', [1, 2]) := withHistory_eq_some.2 ⟨hserve, rfl⟩
  have hkept : localBytes w' 2 = some [1, 2] :=
    (h ⟨sampleMount, w, _, 2, [1, 2, 3], hrow⟩ [.truncate 2 .fine] _ hstep).1
  rw [hzeros] at hkept
  exact absurd hkept (by decide)

end Stratosync
