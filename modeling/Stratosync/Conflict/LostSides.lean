import Stratosync.Conflict.KeepsBoth

/-!
# How a resolution loses a side

The runs in which the resolver discards bytes, one for each part of the condition of
`ResolveCase.keepsBoth_iff`: a merge whose text never gets to the remote, a text with markers that
takes the place of the local version, a conflict file that replaces another one. `Reaches` says
that some run comes to a step; each run here is built from the ones before it.
-/

namespace Stratosync

open Foundations.Runs

namespace ResolveCase

variable {c : ResolveCase} {h h' : Holdings} {pc pc' : ResolvePc}

variable (c) in
/-- A run of the resolver comes to this step. -/
def Reaches (h : Holdings) (pc : ResolvePc) : Prop :=
  Foundations.Tasks.Reaches (fun h env pc => ResolvePc.tick c.tools c.entry c.cachePath h env pc)
    c.start .equalStat h (.goto pc)

theorem Reaches.step (hr : c.Reaches h pc) (env : ResolveEnv)
    (ht : pc.tick c.tools c.entry c.cachePath h env = (h', .goto pc')) : c.Reaches h' pc' :=
  Foundations.Tasks.Reaches.step hr env ht

/-- What the result of a run that has come to a step owes. -/
theorem Reaches.kept (hr : c.Reaches h pc) (hc : c.KeepsBoth) (env : ResolveEnv)
    {next : ResolveNext} (ht : pc.tick c.tools c.entry c.cachePath h env = (h', next)) :
    c.Kept h' next := by
  obtain ⟨envs, hr⟩ := Foundations.Tasks.Reaches.step hr env ht
  have hk := hc envs
  rw [resolveFrom, hr] at hk
  exact hk

/-! ## Coming to a step -/

theorem reaches_base : c.Reaches c.start .base :=
  (show c.Reaches c.start .equalStat from .refl).step .failing rfl

/-- Whether or not there is a base, the resolver can come to keeping both with nothing changed. -/
theorem reaches_nameSibling : c.Reaches c.start .nameSibling := by
  cases hb : mergeBase c.tools c.start c.entry c.cachePath with
  | none =>
    refine reaches_base.step (.fine exampleSuffix.ts) ?_
    simp only [ResolvePc.tick, hb]
    rfl
  | some hash =>
    have hfetch : c.Reaches c.start (.mergeFetch hash) := by
      refine reaches_base.step (.fine exampleSuffix.ts) ?_
      simp only [ResolvePc.tick, hb]
      rfl
    exact hfetch.step .failing rfl

/-- A merge that is tried comes to the merge. -/
theorem reaches_merge {base : Bytes} (hb : c.TriesMerge base) :
    ∃ hash h, c.Reaches h (.merge hash) ∧ c.start.objects hash = some base ∧
      c.start.save (remoteTmp c.cachePath) c.remote.data = some h := by
  obtain ⟨hash, h, hhash, hbase, hsave⟩ := hb
  have hfetch : c.Reaches c.start (.mergeFetch hash) := by
    refine reaches_base.step (.fine exampleSuffix.ts) ?_
    simp only [ResolvePc.tick, hhash]
    rfl
  have hfetched : c.Reaches c.start (.mergeSave hash c.remote.data) := by
    refine hfetch.step (.fine exampleSuffix.ts) ?_
    simp only [ResolvePc.tick, c.hasRemote]
    rfl
  refine ⟨hash, h, hfetched.step (.fine exampleSuffix.ts) ?_, hbase, hsave⟩
  simp only [ResolvePc.tick, hsave]
  rfl

/-- A merge that gives a text comes to writing it. -/
theorem reaches_writeMerged {base text : Bytes} (clean : Bool) (hb : c.TriesMerge base)
    (ho : c.outcome base = if clean then .clean text else .conflictMarkers text) :
    ∃ h, c.Reaches h (.writeMerged text clean) ∧
      c.start.save (remoteTmp c.cachePath) c.remote.data = some h := by
  obtain ⟨hash, h, hr, hbase, hsave⟩ := reaches_merge hb
  refine ⟨h, hr.step (.fine exampleSuffix.ts) ?_, hsave⟩
  have houtcome := tryThreeWayMerge_of_save hsave hbase
  simp only [ResolvePc.tick]
  rw [if_neg (by decide), houtcome, ho]
  cases clean <;> rfl

/-! ## Keeping both -/

variable (c) in
/-- From where the conflict file is named, with this content in the cache file. -/
structure Naming (h : Holdings) (data : Bytes) : Prop where
  reaches : c.Reaches h .nameSibling
  db : h.world.db = c.start.world.db
  remote : h.world.remote = c.start.world.remote
  file : h.world.fs.files c.cachePath = some data
  writable : h.world.fs.Writable c.cachePath

theorem naming_start : c.Naming c.start c.loc :=
  ⟨reaches_nameSibling, rfl, rfl, c.hasLocal, c.writable⟩

section Naming

variable {data : Bytes} {ts : Timestamp} {seen : Option Bytes}

/-- The conflict file may be named after its content or after nothing. -/
theorem Naming.reaches_readSibling (hn : c.Naming h data) (ts : Timestamp)
    (hseen : ∀ d ∈ seen, d = data) :
    c.Reaches h (.readSibling (makeConflictName c.entry.name (.ofContent ts seen))) := by
  cases seen with
  | none => exact hn.reaches.step { ResolveEnv.fine ts with fault := true } rfl
  | some d =>
    obtain rfl := hseen d rfl
    refine hn.reaches.step (.fine ts) ?_
    simp only [ResolvePc.tick, hn.file]
    rfl

theorem Naming.reaches_putSibling (hn : c.Naming h data) (ts : Timestamp)
    (hseen : ∀ d ∈ seen, d = data) :
    c.Reaches h (.putSibling (makeConflictName c.entry.name (.ofContent ts seen)) data) := by
  refine (hn.reaches_readSibling ts hseen).step (.fine ts) ?_
  simp only [ResolvePc.tick, hn.file]
  rfl

/-- The conflict file is uploaded unless there is a directory in its place. -/
theorem Naming.reaches_statUploaded (hn : c.Naming h data) (ts : Timestamp)
    (hseen : ∀ d ∈ seen, d = data)
    (hdir : c.start.world.remote (c.siblingPath (.ofContent ts seen)) ≠ some .dir) :
    ∃ o, o.data = data ∧ c.Reaches
      (h.withRemote (c.start.world.remote.put (c.siblingPath (.ofContent ts seen)) o))
      (.statUploaded (makeConflictName c.entry.name (.ofContent ts seen))) := by
  obtain ⟨o, ho, hup⟩ := upload_none data none 0 hdir
  refine ⟨o, ho, (hn.reaches_putSibling ts hseen).step (.fine ts) ?_⟩
  simp only [ResolvePc.tick, hn.remote]
  rw [show c.start.world.remote.upload (c.entry.conflictPath _) none data
    (ResolveEnv.fine ts).etag (ResolveEnv.fine ts).mtime = _ from hup]
  rfl

/-- The rest of the run when nothing fails any more. -/
theorem reaches_end {name : Str} (hr : c.Reaches h (.statUploaded name))
    (hdb : h.world.db = c.start.world.db) (hw : h.world.fs.Writable c.cachePath)
    (hsibling : ∃ o, h.world.remote.object (c.entry.conflictPath name) = some o)
    (hcanonical : h.world.remote.object c.entry.remotePath = some c.remote) :
    ∃ h' size etag, c.Reaches h' (.insertSibling name size etag) ∧ c.Recorded h'.world.db ∧
      h'.world.remote = h.world.remote := by
  obtain ⟨o, ho⟩ := hsibling
  obtain ⟨mo, hmo, -⟩ := stat_of_object ho
  obtain ⟨md, hmd, -⟩ := stat_of_object hcanonical
  have hfetch : c.Reaches h (.fetchRemote name) := by
    refine hr.step (.fine exampleSuffix.ts) ?_
    simp only [ResolvePc.tick, hmo]
    rfl
  have hfetched : c.Reaches h (.saveRemote name c.remote.data) := by
    refine hfetch.step (.fine exampleSuffix.ts) ?_
    simp only [ResolvePc.tick, hcanonical]
    rfl
  obtain ⟨h₁, hsave⟩ := Option.isSome_iff_exists.1
    (Holdings.save_isSome hw c.remote.data)
  have hsaved : c.Reaches h₁ (.statRemote name) := by
    refine hfetched.step (.fine exampleSuffix.ts) ?_
    simp only [ResolvePc.tick, hsave]
    rfl
  obtain ⟨fs, rfl, hfs⟩ := Holdings.save_spec hsave
  have hfile : fs.files c.cachePath = some c.remote.data := (hfs _).trans (if_pos rfl)
  have hstat : c.Reaches (h.withFs fs) (.recordRemote name c.remote.data.length md) := by
    refine hsaved.step (.fine exampleSuffix.ts) ?_
    have hmd' : (h.withFs fs).world.remote.stat c.entry.remotePath = some md := hmd
    have hfile' : (h.withFs fs).world.fs.files c.cachePath = some c.remote.data := hfile
    simp only [ResolvePc.tick, hfile', hmd']
    rfl
  have hset : (h.world.db.setCached c.entry.inode c.cachePath c.remote.data.length md.etag
      md.mtime md.size).isSome = true := by
    rw [hdb, Db.setCached_isSome_iff, c.indexed]
    rfl
  obtain ⟨db, hset⟩ := Option.isSome_iff_exists.1 hset
  have hrecorded : c.Reaches ((h.withFs fs).withDb db)
      (.statSibling name c.remote.data.length) := by
    refine hstat.step (.fine exampleSuffix.ts) ?_
    have hset' : (h.withFs fs).world.db.setCached c.entry.inode c.cachePath c.remote.data.length
      md.etag md.mtime md.size = some db := hset
    simp only [ResolvePc.tick, hset']
    rfl
  refine ⟨(h.withFs fs).withDb db, mo.size, mo.etag, hrecorded.step (.fine exampleSuffix.ts) ?_, ?_,
    rfl⟩
  · have hmo' : ((h.withFs fs).withDb db).world.remote.stat (c.entry.conflictPath name) =
      some mo := hmo
    simp only [ResolvePc.tick, hmo']
    rfl
  · exact ⟨_, _, _, _, hdb ▸ hset⟩

/-- **Storing the content of the cache file replaces no other conflict file.** -/
theorem Naming.siblingSafe (hn : c.Naming h data) (hc : c.KeepsBoth) : c.SiblingSafe data := by
  by_cases hne : c.loc = c.remote.data
  · exact .inl hne
  refine .inr fun ts seen hseen hfits o ho => ?_
  obtain ⟨o', ho', hr⟩ := hn.reaches_statUploaded ts hseen (ne_dir_of_object ho)
  have hput : (c.start.world.remote.put (c.siblingPath (.ofContent ts seen)) o').object
      (c.siblingPath (.ofContent ts seen)) = some o' := by
    rw [Remote.object_put, if_pos rfl]
  have hcanonical : (c.start.world.remote.put (c.siblingPath (.ofContent ts seen)) o').object
      c.entry.remotePath = some c.remote := by
    rw [Remote.object_put, if_neg fun h => siblingPath_ne _ h.symm, c.hasRemote]
  obtain ⟨h₁, size, etag, hend, hrec, hremote⟩ :=
    reaches_end hr hn.db hn.writable ⟨o', hput⟩ hcanonical
  obtain ⟨⟨i, db⟩, hins⟩ := Option.isSome_iff_exists.1
    ((insertFile_isSome_of_recorded hrec (.ofContent ts seen) size 0 etag).2 hfits)
  have hk : c.Kept (h₁.withDb db) (.ok .keptBoth) := by
    refine hend.kept hc (.fine exampleSuffix.ts) ?_
    have hins' : h₁.world.db.insertFile (conflictRow c.entry
        (makeConflictName c.entry.name (.ofContent ts seen))
        (c.entry.conflictPath (makeConflictName c.entry.name (.ofContent ts seen))) size
        (ResolveEnv.fine exampleSuffix.ts).mtime etag) = some (i, db) := hins
    simp only [ResolvePc.tick, hins']
    rfl
  obtain heq | ⟨hmerged, -⟩ | ⟨-, -, hstored⟩ := hk
  · exact absurd heq hne
  · cases hmerged
  · have hnow := hstored _ o ho
    have hpath : (h₁.withDb db).world.remote = c.start.world.remote.put _ o' := hremote
    rw [hpath, hput, Option.map_some, ho'] at hnow
    exact (Option.some.inj hnow).symm

/-- **Storing the content of the cache file leaves the local bytes in a conflict file.** -/
theorem Naming.survives (hn : c.Naming h data) (hc : c.KeepsBoth) : c.Survives data := by
  intro ts seen hseen
  by_cases hdir : c.start.world.remote (c.siblingPath (.ofContent ts seen)) = some .dir
  · have hk : c.Kept h .err := (hn.reaches_putSibling ts hseen).kept hc .failing rfl
    obtain hfile | ⟨suffix, hheld⟩ := hk
    · exact .inl (Option.some.inj (hn.file.symm.trans hfile))
    · refine .inr ⟨suffix, fun hpath => ?_, hn.remote ▸ hheld⟩
      rw [hn.remote, hpath, Remote.object, hdir] at hheld
      cases hheld
  · obtain ⟨o, ho, hr⟩ := hn.reaches_statUploaded ts hseen hdir
    obtain hfile | ⟨suffix, hheld⟩ := hr.kept hc .failing rfl
    · exact .inl (Option.some.inj (hn.file.symm.trans hfile))
    · by_cases hpath : c.siblingPath suffix = c.siblingPath (.ofContent ts seen)
      · have hput : (c.start.world.remote.put (c.siblingPath (.ofContent ts seen)) o).object
            (c.siblingPath suffix) = some o := by
          rw [Remote.object_put, if_pos hpath]
        refine .inl (ho.symm.trans (Option.some.inj ?_))
        rw [← hheld]
        exact (congrArg (Option.map RemoteObject.data) hput).symm
      · refine .inr ⟨suffix, hpath, ?_⟩
        rw [← hheld]
        exact congrArg (Option.map RemoteObject.data)
          ((Remote.object_put ..).trans (if_neg hpath)).symm

end Naming

/-! ## Merging -/

section Merging

variable {base text : Bytes}

/-- The temporary file is not a directory above the cache file. -/
theorem remoteTmp_ne_nil : remoteTmp c.cachePath ≠ [] := by
  intro h
  have hne := c.writable.ne_nil
  rw [remoteTmp, withExtension] at h
  split at h
  · exact List.append_ne_nil_of_right_ne_nil _ (List.cons_ne_nil _ _) h
  · exact hne h

theorem writable_of_merge
    (hsave : c.start.save (remoteTmp c.cachePath) c.remote.data = some h) :
    h.world.fs.Writable c.cachePath :=
  Holdings.writable_of_save c.writable remoteTmp_ne_nil (dropLast_remoteTmp _) hsave

/-- The merged text is written. -/
theorem write_of_merge (text : Bytes)
    (hsave : c.start.save (remoteTmp c.cachePath) c.remote.data = some h) :
    ∃ fs, h.write (.fine exampleSuffix.ts) c.cachePath text = (true, h.withFs fs) ∧
      fs.files c.cachePath = some text ∧ fs.Writable c.cachePath := by
  have hw := writable_of_merge hsave
  obtain ⟨fs, hfs⟩ := Option.isSome_iff_exists.1 (hw.install_isSome text)
  refine ⟨fs, Holdings.write_fine rfl hfs, ?_, ?_⟩
  · rw [CacheFs.files_of_install hfs, if_pos rfl]
  · exact hw.of_install (CacheFs.Writable.not_mem_inits hw.ne_nil) hfs

/-- Where the temporary file is the cache file, a merge that fails removes the local bytes. -/
theorem held_of_tmp (hb : c.TriesMerge base) (hc : c.KeepsBoth)
    (htmp : remoteTmp c.cachePath = c.cachePath) : c.Held c.start.world.remote := by
  obtain ⟨hash, h, hr, -, hsave⟩ := reaches_merge hb
  obtain ⟨-, hremote, -, -, -⟩ := files_of_save hsave
  have hname : c.Reaches (h.withFs (h.world.fs.removeIfPresent (some (remoteTmp c.cachePath))))
      .nameSibling := hr.step .failing rfl
  have hk : c.Kept (h.withFs (h.world.fs.removeIfPresent (some (remoteTmp c.cachePath)))) .err :=
    (hname.step .failing rfl).kept hc .failing rfl
  refine hremote ▸ hk.resolve_left fun hfile => ?_
  rw [Holdings.withFs, CacheFs.files_removeIfPresent_some, if_pos htmp.symm] at hfile
  cases hfile

/-- A clean merge comes to the upload of its result. -/
theorem reaches_readMerged (hb : c.TriesMerge base) (ho : c.outcome base = .clean text) :
    ∃ h, c.Reaches h (.readMerged text.length) ∧ h.world.db = c.start.world.db ∧
      h.world.remote = c.start.world.remote ∧ h.world.fs.files c.cachePath = some text := by
  obtain ⟨h, hr, hsave⟩ := reaches_writeMerged true hb ho
  obtain ⟨hdb, hremote, -, -, -⟩ := files_of_save hsave
  obtain ⟨fs, hw, hfile, -⟩ := write_of_merge text hsave
  refine ⟨h.withFs fs, hr.step (.fine exampleSuffix.ts) ?_, hdb, hremote, hfile⟩
  simp only [ResolvePc.tick, hw]
  rfl

/-- A merge with markers comes to keeping both, with the temporary file removed. -/
theorem reaches_nameSibling_of_markers (hb : c.TriesMerge base)
    (ho : c.outcome base = .conflictMarkers text) :
    ∃ h, c.Reaches h .nameSibling ∧ h.world.db = c.start.world.db ∧
      h.world.remote = c.start.world.remote ∧ h.world.fs.Writable c.cachePath ∧
      h.world.fs.files c.cachePath =
        if c.cachePath = remoteTmp c.cachePath then none else some text := by
  obtain ⟨h, hr, hsave⟩ := reaches_writeMerged false hb ho
  obtain ⟨hdb, hremote, -, -, -⟩ := files_of_save hsave
  obtain ⟨fs, hw, hfile, hwritable⟩ := write_of_merge text hsave
  refine ⟨h.withFs (fs.removeIfPresent (some (remoteTmp c.cachePath))),
    hr.step (.fine exampleSuffix.ts) ?_, hdb, hremote, hwritable.of_removeIfPresent, ?_⟩
  · simp only [ResolvePc.tick, hw]
    rfl
  · exact (fs.files_removeIfPresent_some ..).trans (by rw [hfile])

/-- The write over the local bytes can fail with the file truncated. -/
theorem held_or_nil_of_truncated (clean : Bool) (hb : c.TriesMerge base) (hc : c.KeepsBoth)
    (ho : c.outcome base = if clean then .clean text else .conflictMarkers text) :
    c.Held c.start.world.remote ∨ c.loc = [] := by
  obtain ⟨h, hr, hsave⟩ := reaches_writeMerged clean hb ho
  obtain ⟨-, hremote, -, -, -⟩ := files_of_save hsave
  obtain ⟨fs, hfs⟩ := Option.isSome_iff_exists.1
    ((writable_of_merge hsave).install_isSome (text.take 0))
  have hw : h.write .failing c.cachePath text = (false, h.withFs fs) := by
    rw [Holdings.write, ResolveEnv.failing]
    simp only [if_true, Option.bind_some, hfs, Option.map_some, Option.getD_some]
  have hk : c.Kept (h.withFs fs) .err := by
    refine hr.kept hc .failing ?_
    simp only [ResolvePc.tick, hw]
  obtain hfile | held := hk
  · have hempty : fs.files c.cachePath = some [] := by
      rw [CacheFs.files_of_install hfs, if_pos rfl, List.take_zero]
    exact .inr (Option.some.inj (hfile.symm.trans hempty))
  · exact .inl (hremote ▸ held)

/-- What comes after the write can fail with the text in the cache file. -/
theorem held_or_eq_of_written (hb : c.TriesMerge base) (hc : c.KeepsBoth)
    (ho : c.outcome base = .clean text ∨ c.outcome base = .conflictMarkers text) :
    c.Held c.start.world.remote ∨ text = c.loc := by
  obtain ho | ho := ho
  · obtain ⟨h, hr, -, hremote, hfile⟩ := reaches_readMerged hb ho
    obtain hkept | held := hr.kept hc .failing rfl
    · exact .inr (Option.some.inj (hfile.symm.trans hkept))
    · exact .inl (hremote ▸ held)
  · obtain ⟨h, hr, -, hremote, -, hfile⟩ := reaches_nameSibling_of_markers hb ho
    obtain hkept | held := (hr.step .failing rfl).kept hc .failing rfl
    · rw [hfile] at hkept
      split at hkept
      · cases hkept
      · exact .inr (Option.some.inj hkept)
    · exact .inl (hremote ▸ held)

/-- What a clean merge stores is what a merge of the local bytes gives, or nothing is lost. -/
theorem eq_of_clean (hb : c.TriesMerge base) (hc : c.KeepsBoth)
    (ho : c.outcome base = .clean text) : c.loc = c.remote.data ∨
      c.tools.mergeFile c.loc base c.remote.data = .clean text ∨ text = c.remote.data := by
  obtain ⟨h, hr, hdb, hremote, hfile⟩ := reaches_readMerged hb ho
  have hread : c.Reaches h (.putMerged text.length text) := by
    refine hr.step (.fine exampleSuffix.ts) ?_
    simp only [ResolvePc.tick, hfile]
    rfl
  obtain ⟨o, hdata, hup⟩ := upload_none text none 0
    (ne_dir_of_object (hremote ▸ c.hasRemote))
  have hput : c.Reaches (h.withRemote (h.world.remote.put c.entry.remotePath o))
      (.statMerged text.length) := by
    refine hread.step (.fine exampleSuffix.ts) ?_
    simp only [ResolvePc.tick]
    rw [show h.world.remote.upload c.entry.remotePath none text
      (ResolveEnv.fine exampleSuffix.ts).etag (ResolveEnv.fine exampleSuffix.ts).mtime = _ from hup]
    rfl
  have hobject : (h.world.remote.put c.entry.remotePath o).object c.entry.remotePath = some o := by
    rw [Remote.object_put, if_pos rfl]
  obtain ⟨md, hmd, -⟩ := stat_of_object hobject
  have hstat : c.Reaches (h.withRemote (h.world.remote.put c.entry.remotePath o))
      (.recordMerged text.length md) := by
    refine hput.step (.fine exampleSuffix.ts) ?_
    have hmd' : (h.withRemote (h.world.remote.put c.entry.remotePath o)).world.remote.stat
      c.entry.remotePath = some md := hmd
    simp only [ResolvePc.tick, hmd']
    rfl
  have hset : (h.world.db.setCached c.entry.inode c.cachePath text.length md.etag md.mtime
      md.size).isSome = true := by
    rw [hdb, Db.setCached_isSome_iff, c.indexed]
    rfl
  obtain ⟨db, hset⟩ := Option.isSome_iff_exists.1 hset
  obtain ⟨h', htick, hend⟩ : ∃ h',
      (ResolvePc.recordMerged text.length md).tick c.tools c.entry c.cachePath
        (h.withRemote (h.world.remote.put c.entry.remotePath o)) (.fine exampleSuffix.ts) =
          (h', .ok .merged) ∧ h'.world.remote = h.world.remote.put c.entry.remotePath o := by
    have hset' : (h.withRemote (h.world.remote.put c.entry.remotePath o)).world.db.setCached
      c.entry.inode c.cachePath text.length md.etag md.mtime md.size = some db := hset
    simp only [ResolvePc.tick, hset']
    exact ⟨_, rfl, rfl⟩
  have hcanonical : (h'.world.remote.object c.entry.remotePath).map RemoteObject.data =
      some text := by
    rw [hend, hobject, Option.map_some, hdata]
  obtain heq | ⟨-, hash, base', text', hhash, hbase', hmerge, htext⟩ | ⟨-, hkeeps, -⟩ :=
    hstat.kept hc _ htick
  · exact .inl heq
  · obtain ⟨hash', _, hhash', hbase, -⟩ := hb
    obtain rfl := Option.some.inj (hhash.symm.trans (mergeBase_spec hhash').1)
    obtain rfl := Option.some.inj (hbase'.symm.trans hbase)
    obtain rfl := Option.some.inj (htext.symm.trans hcanonical)
    exact .inr (.inl hmerge)
  · exact .inr (.inr (Option.some.inj (hcanonical.symm.trans hkeeps)))

theorem mergeSafe_of_keepsBoth (hb : c.TriesMerge base) (hc : c.KeepsBoth) : c.MergeSafe base where
  tmp := held_of_tmp hb hc
  text := by
    intro text ho
    have htruncated : c.Held c.start.world.remote ∨ c.loc = [] := by
      obtain hclean | hmarkers := ho
      · exact held_or_nil_of_truncated true hb hc hclean
      · exact held_or_nil_of_truncated false hb hc hmarkers
    obtain held | hnil := htruncated
    · exact .inl held
    · exact (held_or_eq_of_written hb hc ho).imp_right fun htext => ⟨hnil, htext.trans hnil⟩
  clean := fun _ ho => eq_of_clean hb hc ho
  markers := by
    intro text ho htmp
    obtain ⟨h, hr, hdb, hremote, hw, hfile⟩ := reaches_nameSibling_of_markers hb ho
    have hn : c.Naming h text :=
      ⟨hr, hdb, hremote, hfile.trans (if_neg fun h => htmp h.symm), hw⟩
    exact ⟨hn.siblingSafe hc, hn.survives hc⟩

end Merging

/-- **A conflict is resolved without discarding a side exactly where** a conflict file with the
local bytes replaces no other one and a merge, if there is one, is safe: its text is not the only
thing the cache file held, and where it has markers it may stand in for the local version. -/
theorem keepsBoth_iff (c : ResolveCase) :
    c.KeepsBoth ↔ c.SiblingSafe c.loc ∧ ∀ base, c.TriesMerge base → c.MergeSafe base :=
  ⟨fun hc => ⟨naming_start.siblingSafe hc, fun _ hb => mergeSafe_of_keepsBoth hb hc⟩,
    fun h => keepsBoth_of_safe h.1 h.2⟩

end ResolveCase

/-! ## A conflict that loses a side -/

/-- `git merge-file` on versions that are one line each. -/
def oneLineMerge (loc _base remote : Bytes) : MergeOutcome :=
  .conflictMarkers (asciiBytes "<<<<<<< a.txt\n" ++ loc ++ asciiBytes "=======\n" ++ remote ++
    asciiBytes ">>>>>>> a.stratosync-remote-tmp\n")

/-- Merging is on, for text files. -/
def textTools : MergeTools :=
  { textConflictStrategy := .merge, textExtensions := ["txt".toList], baseMaxFileSize := 100
    hasGit := true, mergeFile := oneLineMerge, sha256 := fun _ => [], lower := id }

/-- `a.txt` is written and uploaded, written again, and replaced by another client. -/
def textClash : List Event :=
  [.request (.create fuseRootInode "a.txt".toList), .request (.write 1 0 (asciiBytes "base\n")),
    .fuse .fine, .launch 2, .upload 0 .fine, .upload 0 .fine, .upload 0 .fine, .upload 0 .fine,
    .upload 0 (.accepted ['v']), .upload 0 .fine, .upload 0 .fine, .upload 0 .fine,
    .request (.write 1 0 (asciiBytes "mine\n")), .fuse .fine,
    foreignVersion "a.txt".toList (asciiBytes "ours\n") ['w']]

/-- The state after that, with the uploaded version as the base. -/
def clashed : Holdings :=
  { world := (run (step sampleMount) (World.init sampleMount 0) textClash).getD
      (World.init sampleMount 0)
    objects := fun _ => some (asciiBytes "base\n")
    baseHash := fun _ => some [] }

/-- The conflict over `a.txt`. -/
def textCase : ResolveCase where
  tools := textTools
  entry := (clashed.world.db.getByInode 2).getD (rootEntry 1)
  cachePath := [['c'], "a.txt".toList]
  start := clashed
  loc := asciiBytes "mine\n"
  remote := ⟨asciiBytes "ours\n", some ['w'], 0, none⟩
  indexed := rfl
  inDirectory := rfl
  cached := rfl
  hasLocal := rfl
  hasRemote := rfl
  writable := ⟨by decide, by decide, by decide, by decide⟩

/-- The text with markers takes the place of the local version. -/
theorem not_keepsBoth_markers : ¬∀ c : ResolveCase, c.KeepsBoth := by
  intro h
  have hmerge : textCase.TriesMerge (asciiBytes "base\n") := ⟨[], _, rfl, rfl, rfl⟩
  obtain ⟨o, o', hremote⟩ : ∃ o o', textCase.start.world.remote =
      (Remote.put (fun _ => none) textCase.entry.remotePath o).put textCase.entry.remotePath o' :=
    ⟨_, _, rfl⟩
  obtain ⟨suffix, hheld⟩ | ⟨hempty, -⟩ :=
    (ResolveCase.mergeSafe_of_keepsBoth hmerge (h textCase)).text _ (.inr rfl)
  · rw [hremote, ResolveCase.object_put_canonical, ResolveCase.object_put_canonical] at hheld
    cases hheld
  · exact absurd hempty (by decide)

end Stratosync
