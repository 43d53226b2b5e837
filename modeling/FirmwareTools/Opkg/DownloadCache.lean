import FirmwareTools.Opkg.Conffiles

/-! # The download cache

`opkg_download_cache` looks for a file under the URL with `,` for `/`, and then under the base name of the
destination. It stores a file under the base name only, so what it finds may come from another URL.

* **`opkgDownloadCache_spec`** — what a call reads and writes;
* **`downloadCache_faithful_iff`** — when the destination gets what is at the URL. -/

namespace FirmwareTools.Opkg

open Op

variable {env : Env} {cache src dest : CStr} {disk disk' : Disk} {err : Int}

/-! ## Where a call looks -/

/-- The place of a URL in the cache. -/
def urlLocation (cache src : CStr) : CStr :=
  cache ++ "/".toList ++ src.map fun c => if c = '/' then ',' else c

/-- The place of a destination in the cache. -/
def destLocation (cache dest : CStr) : CStr := cache ++ "/".toList ++ baseName dest

/-- A name in the directory of the cache. -/
def InCache (cache p : CStr) : Prop := ∃ name : CStr, '/' ∉ name ∧ p = cache ++ "/".toList ++ name

/-- The file in the cache that a call takes, if there is one. -/
def foundInCache (cache : CStr) (files : Files) (src dest : CStr) : Option CStr :=
  if "file:".toList.isPrefixOf src then none
  else if (files (urlLocation cache src)).isSome then some (urlLocation cache src)
  else if (files (destLocation cache dest)).isSome then some (destLocation cache dest)
  else none

/-- What a call can put at its destination. -/
def CanDeliver (env : Env) (cache src dest : CStr) (files : Files) (content : CStr) : Prop :=
  match foundInCache cache files src dest with
  | some p => files p = some (.file content)
  | none =>
    if "file:".toList.isPrefixOf src then files (src.drop 5) = some (.file content)
    else ∃ k, env.download k src = some content

theorem slash_not_mem_baseName (path : CStr) : '/' ∉ baseName path := by
  intro hmem
  have h := List.mem_rtakeWhile_imp hmem
  simp at h

theorem inCache_urlLocation (cache src : CStr) : InCache cache (urlLocation cache src) := by
  refine ⟨_, fun hmem => ?_, rfl⟩
  obtain ⟨c, -, hc⟩ := List.mem_map.mp hmem
  split at hc
  · exact absurd hc (by decide)
  · rename_i hne
    exact hne hc

theorem inCache_destLocation (cache dest : CStr) : InCache cache (destLocation cache dest) :=
  ⟨_, slash_not_mem_baseName dest, rfl⟩

theorem baseName_append_slash (a : CStr) {x : CStr} (hx : '/' ∉ x) : baseName (a ++ "/".toList ++ x) = x := by
  have hall : ∀ c ∈ x.reverse, (c != '/') = true := by
    intro c hc
    rw [bne_iff_ne]
    rintro rfl
    exact hx (List.mem_reverse.mp hc)
  rw [baseName, List.rtakeWhile, List.reverse_append, List.reverse_append,
    List.takeWhile_append_of_pos hall]
  simp

/-- The directory of the temporary files is another one. -/
theorem not_inCache_of_ne {dir : CStr} (hne : dir ≠ cache) (path : CStr) :
    ¬ InCache cache (dir ++ "/".toList ++ baseName path) := by
  rintro ⟨name, hname, heq⟩
  have hbase : baseName path = name := by
    rw [← baseName_append_slash cache hname, ← heq, baseName_append_slash dir (slash_not_mem_baseName path)]
  rw [hbase] at heq
  exact hne (List.append_cancel_right (List.append_cancel_right heq))

/-! ## What a call does -/

theorem fileExists_bind {α : Type} (path : CStr) (f : Bool → DiskOp α) (disk : Disk) :
    (fileExists path >>= f) disk = f (disk.files path).isSome disk := rfl

theorem fileIsDir_bind {α : Type} (path : CStr) (f : Bool → DiskOp α) (disk : Disk) :
    (fileIsDir path >>= f) disk = f (disk.files path == some .dir) disk := rfl

/-- What is at `q` has been left alone, or is some good bytes. -/
def Gives (good : CStr → Prop) (disk disk' : Disk) (q : CStr) : Prop :=
  disk'.files q = disk.files q ∨ ∃ c, good c ∧ disk'.files q = some (.file c)

variable {good : CStr → Prop} {disk₁ disk₂ : Disk} {q : CStr}

theorem Gives.refl (good : CStr → Prop) (disk : Disk) (q : CStr) : Gives good disk disk q := .inl rfl

theorem Gives.trans (h : Gives good disk disk₁ q) (h' : Gives good disk₁ disk₂ q) : Gives good disk disk₂ q := by
  rcases h' with heq | h'
  · rw [Gives, heq]
    exact h
  · exact .inr h'

theorem gives_put (disk : Disk) {path c : CStr} (hc : good c) : Gives good disk (disk.put path (some (.file c))) q := by
  by_cases hq : q = path
  · refine .inr ⟨c, hc, ?_⟩
    rw [hq, Disk.put_self]
  · exact .inl (disk.put_of_ne _ hq)

theorem fileCopy_gives (good : CStr → Prop) (hgood : ∀ c, disk.files src = some (.file c) → good c)
    (h : fileCopy env src dest disk = some (err, disk')) :
    (∀ q, Gives good disk disk' q) ∧ (err = 0 → ∃ c, good c ∧ disk'.files dest = some (.file c)) := by
  rw [fileCopy_eq] at h
  split at h
  · rename_i content hsrc
    split at h
    · obtain ⟨-, rfl⟩ := Prod.mk.inj (Option.some.inj h)
      exact ⟨fun q => gives_put disk.next (hgood content hsrc),
        fun _ => ⟨content, hgood content hsrc, Disk.put_self _ _ _⟩⟩
    · obtain ⟨rfl, rfl⟩ := Prod.mk.inj (Option.some.inj h)
      exact ⟨fun q => .inl rfl, fun herr => absurd herr (by decide)⟩
  · obtain ⟨rfl, rfl⟩ := Prod.mk.inj (Option.some.inj h)
    exact ⟨fun q => .inl rfl, fun herr => absurd herr (by decide)⟩

theorem fileMove_gives (good : CStr → Prop) (hgood : ∀ c, disk.files src = some (.file c) → good c)
    (h : fileMove env src dest disk = some (err, disk')) :
    (∀ q, q ≠ src → Gives good disk disk' q) ∧ (err = 0 → ∃ c, good c ∧ disk'.files dest = some (.file c)) := by
  rw [fileMove_eq] at h
  split at h
  · rename_i content hsrc
    split at h
    · obtain ⟨-, rfl⟩ := Prod.mk.inj (Option.some.inj h)
      refine ⟨fun q hq => ?_, fun _ => ⟨content, hgood content hsrc, Disk.put_self _ _ _⟩⟩
      have hmoved : Gives good disk (disk.next.put src none) q := .inl (disk.next.put_of_ne _ hq)
      exact hmoved.trans (gives_put _ (hgood content hsrc))
    · obtain ⟨rfl, rfl⟩ := Prod.mk.inj (Option.some.inj h)
      exact ⟨fun q _ => .inl rfl, fun herr => absurd herr (by decide)⟩
  · obtain ⟨rfl, rfl⟩ := Prod.mk.inj (Option.some.inj h)
    exact ⟨fun q _ => .inl rfl, fun herr => absurd herr (by decide)⟩

/-- Removing a file changes nothing else. -/
theorem unlink_files {path : CStr} {unlinked : Bool} (h : unlink env path disk = some (unlinked, disk')) :
    (∀ q, q ≠ path → disk'.files q = disk.files q) ∧
      (disk'.files path = disk.files path ∨ disk'.files path = none) := by
  rw [unlink_eq] at h
  split at h
  · split at h
    · obtain ⟨-, rfl⟩ := Prod.mk.inj (Option.some.inj h)
      exact ⟨fun q hq => disk.next.put_of_ne _ hq, .inr (Disk.put_self _ _ _)⟩
    · obtain ⟨-, rfl⟩ := Prod.mk.inj (Option.some.inj h)
      exact ⟨fun q _ => rfl, .inl rfl⟩
  · obtain ⟨-, rfl⟩ := Prod.mk.inj (Option.some.inj h)
    exact ⟨fun q _ => rfl, .inl rfl⟩

/-- A download from another machine. -/
theorem opkgDownload_gives (hfile : ¬ "file:".toList.isPrefixOf src)
    (h : opkgDownload env src dest disk = some (err, disk')) :
    (∀ q, q ≠ env.tmpDir ++ "/".toList ++ baseName src →
      Gives (fun c => ∃ k, env.download k src = some c) disk disk' q) ∧
      (err = 0 → ∃ c, (∃ k, env.download k src = some c) ∧ disk'.files dest = some (.file c)) := by
  unfold opkgDownload at h
  rw [if_neg hfile, fileExists_bind] at h
  obtain ⟨unlinked, disk₁, hunlink, h⟩ := bind_eq_some.mp h
  obtain ⟨hother, -⟩ := unlink_files hunlink
  split at h
  · obtain ⟨rfl, rfl⟩ := Prod.mk.inj (pure_eq_some.mp h)
    exact ⟨fun q hq => .inl (hother q hq), fun herr => absurd herr (by decide)⟩
  · rw [ask_bind] at h
    cases hdownload : env.download disk₁.asked src with
    | none =>
        rw [hdownload] at h
        obtain ⟨rfl, rfl⟩ := Prod.mk.inj (pure_eq_some.mp h)
        exact ⟨fun q hq => .inl (hother q hq), fun herr => absurd herr (by decide)⟩
    | some content =>
        rw [hdownload] at h
        obtain ⟨_, disk₂, hput, hmove⟩ := bind_eq_some.mp h
        obtain ⟨-, rfl⟩ := Prod.mk.inj (modify_eq_some.mp hput)
        have hgood : ∃ k, env.download k src = some content := ⟨_, hdownload⟩
        obtain ⟨hgives, hok⟩ := fileMove_gives (fun c => ∃ k, env.download k src = some c)
          (fun c hc => by
            have hself := Disk.put_self disk₁.next (env.tmpDir ++ "/".toList ++ baseName src) (some (.file content))
            obtain rfl : content = c := Node.file.inj (Option.some.inj (hself.symm.trans hc))
            exact hgood) hmove
        refine ⟨fun q hq => ?_, hok⟩
        refine Gives.trans (.inl (hother q hq)) (Gives.trans ?_ (hgives q hq))
        exact gives_put disk₁.next hgood

/-- A download to the cache, and from there. -/
theorem downloadToCache_gives (hfile : ¬ "file:".toList.isPrefixOf src) {loc : CStr}
    (hloc : disk.files loc = none) (h : downloadToCache env src loc dest disk = some (err, disk')) :
    (∀ q, q ≠ env.tmpDir ++ "/".toList ++ baseName src →
      Gives (fun c => ∃ k, env.download k src = some c) disk disk' q) ∧
      (err = 0 → ∃ c, (∃ k, env.download k src = some c) ∧ disk'.files dest = some (.file c)) := by
  obtain ⟨err₁, disk₁, hdownload, h⟩ := bind_eq_some.mp h
  obtain ⟨hgives, hok⟩ := opkgDownload_gives hfile hdownload
  split at h
  · rename_i herr
    obtain ⟨unlinked, disk₂, hunlink, h⟩ := bind_eq_some.mp h
    obtain ⟨rfl, rfl⟩ := Prod.mk.inj (pure_eq_some.mp h)
    obtain ⟨hother, hself⟩ := unlink_files hunlink
    refine ⟨fun q hq => ?_, fun herr' => absurd herr' herr⟩
    by_cases hqloc : q = loc
    · -- what has been removed was not there before
      subst hqloc
      rcases hself with hself | hself
      · exact (hgives q hq).trans (.inl hself)
      · exact .inl (hself.trans hloc.symm)
    · exact (hgives q hq).trans (.inl (hother q hqloc))
  · rename_i herr
    obtain ⟨c, hc, hfound⟩ := hok (not_not.mp herr)
    obtain ⟨hcopy, hok'⟩ := fileCopy_gives (fun c => ∃ k, env.download k src = some c) (fun c' hc' => by
      obtain rfl : c = c' := Node.file.inj (Option.some.inj (hfound.symm.trans hc'))
      exact hc) h
    exact ⟨fun q hq => (hgives q hq).trans (hcopy q), hok'⟩

/-- **What a call reads and writes.** -/
theorem opkgDownloadCache_spec (hcache : env.cache = some cache) (htmp : env.tmpDir ≠ cache)
    (h : opkgDownloadCache env src dest disk = some (err, disk')) :
    (∀ q, InCache cache q → Gives (CanDeliver env cache src dest disk.files) disk disk' q) ∧
      (err = 0 → ∃ c, CanDeliver env cache src dest disk.files c ∧ disk'.files dest = some (.file c)) := by
  unfold opkgDownloadCache at h
  rw [hcache] at h
  dsimp only at h
  split at h
  · rename_i hfile
    unfold opkgDownload at h
    rw [if_pos hfile] at h
    obtain ⟨hgives, hok⟩ := fileCopy_gives (CanDeliver env cache src dest disk.files) (fun c hc => by
      rw [CanDeliver, foundInCache, if_pos hfile]
      dsimp only
      rw [if_pos hfile]
      exact hc) h
    exact ⟨fun q _ => hgives q, hok⟩
  · rename_i hfile
    rw [fileIsDir_bind] at h
    split at h
    · obtain ⟨rfl, rfl⟩ := Prod.mk.inj (pure_eq_some.mp h)
      exact ⟨fun q _ => .refl _ _ _, fun herr => absurd herr (by decide)⟩
    · rw [fileExists_bind, ← urlLocation, ← destLocation] at h
      by_cases hurl : (disk.files (urlLocation cache src)).isSome
      · -- the file is there under the URL
        have hfound : foundInCache cache disk.files src dest = some (urlLocation cache src) := by
          rw [foundInCache, if_neg hfile, if_pos hurl]
        rw [if_pos hurl] at h
        obtain ⟨hgives, hok⟩ := fileCopy_gives (CanDeliver env cache src dest disk.files) (fun c hc => by
          rw [CanDeliver, hfound]
          exact hc) h
        exact ⟨fun q _ => hgives q, hok⟩
      · rw [if_neg hurl, fileExists_bind] at h
        by_cases hdest : (disk.files (destLocation cache dest)).isSome
        · -- it is there under the name of the destination
          have hfound : foundInCache cache disk.files src dest = some (destLocation cache dest) := by
            rw [foundInCache, if_neg hfile, if_neg hurl, if_pos hdest]
          rw [if_pos hdest] at h
          obtain ⟨hgives, hok⟩ := fileCopy_gives (CanDeliver env cache src dest disk.files) (fun c hc => by
            rw [CanDeliver, hfound]
            exact hc) h
          exact ⟨fun q _ => hgives q, hok⟩
        · rw [if_neg hdest] at h
          have hgood : CanDeliver env cache src dest disk.files = fun c => ∃ k, env.download k src = some c := by
            funext c
            rw [CanDeliver, foundInCache, if_neg hfile, if_neg hurl, if_neg hdest]
            dsimp only
            rw [if_neg hfile]
          obtain ⟨hgives, hok⟩ := downloadToCache_gives hfile (Option.not_isSome_iff_eq_none.mp hdest) h
          rw [hgood]
          refine ⟨fun q hq => hgives q ?_, hok⟩
          rintro rfl
          exact not_inCache_of_ne htmp src hq

/-! ## Runs -/

/-- The files, and the URL of the call that has last written each of those in the cache. -/
structure CacheState where
  disk : Disk
  writer : CStr → Option CStr

/-- The state after a call for `src`. -/
noncomputable def CacheState.after (cache : CStr) (s : CacheState) (src : CStr) (disk' : Disk) : CacheState where
  disk := disk'
  writer q :=
    open Classical in if InCache cache q ∧ disk'.files q ≠ s.disk.files q then some src else s.writer q

/-- The file that the call takes from the cache, if there is one, is from a URL with the same content. -/
def FindsOwn (cache : CStr) (content : CStr → CStr) (s : CacheState) (src dest : CStr) : Prop :=
  ∀ p u, foundInCache cache s.disk.files src dest = some p → s.writer p = some u → content u = content src

/-- What `file:` names is what is at the URL. -/
def LocalContent (content : CStr → CStr) (src : CStr) (files : Files) : Prop :=
  "file:".toList.isPrefixOf src → ∀ c, files (src.drop 5) = some (.file c) → c = content src

/-- The states that calls lead to, from an empty cache on, if each call finds its own file. Between the calls
the files outside of the cache may change. -/
inductive CacheRun (env : Env) (cache : CStr) (content : CStr → CStr) : CacheState → Prop
  | start (disk : Disk) (hempty : ∀ q c, InCache cache q → disk.files q ≠ some (.file c)) :
      CacheRun env cache content { disk, writer := fun _ => none }
  | elsewhere {s : CacheState} (h : CacheRun env cache content s) (disk' : Disk)
      (hsame : ∀ q, InCache cache q → disk'.files q = s.disk.files q) :
      CacheRun env cache content { s with disk := disk' }
  | call {s : CacheState} (h : CacheRun env cache content s) {src dest : CStr} {err : Int} {disk' : Disk}
      (hlocal : LocalContent content src s.disk.files) (hfinds : FindsOwn cache content s src dest)
      (hcall : opkgDownloadCache env src dest s.disk = some (err, disk')) :
      CacheRun env cache content (s.after cache src disk')

variable {content : CStr → CStr} {s : CacheState}

/-- Each file in the cache is what is at the URL of the call that has written it. -/
def CacheState.Sound (cache : CStr) (content : CStr → CStr) (s : CacheState) : Prop :=
  ∀ q c, InCache cache q → s.disk.files q = some (.file c) → ∃ u, s.writer q = some u ∧ c = content u

theorem inCache_of_found {p : CStr} {files : Files} (h : foundInCache cache files src dest = some p) :
    InCache cache p := by
  unfold foundInCache at h
  split at h
  · cases h
  · split at h
    · exact Option.some.inj h ▸ inCache_urlLocation cache src
    · split at h
      · exact Option.some.inj h ▸ inCache_destLocation cache dest
      · cases h

/-- A call that finds its own file delivers what is at its URL. -/
theorem eq_content_of_canDeliver (hdownload : ∀ k u c, env.download k u = some c → c = content u)
    (h : s.Sound cache content) (hlocal : LocalContent content src s.disk.files)
    (hfinds : FindsOwn cache content s src dest) {c : CStr}
    (hc : CanDeliver env cache src dest s.disk.files c) : c = content src := by
  unfold CanDeliver at hc
  split at hc
  · rename_i p hfound
    obtain ⟨u, hu, rfl⟩ := h p c (inCache_of_found hfound) hc
    exact hfinds p u hfound hu
  · split at hc
    · rename_i hfile
      exact hlocal hfile c hc
    · obtain ⟨k, hk⟩ := hc
      exact hdownload k src c hk

/-- **One call.** -/
theorem sound_after (hcache : env.cache = some cache) (htmp : env.tmpDir ≠ cache)
    (hdownload : ∀ k u c, env.download k u = some c → c = content u)
    (h : s.Sound cache content) (hlocal : LocalContent content src s.disk.files)
    (hfinds : FindsOwn cache content s src dest)
    (hcall : opkgDownloadCache env src dest s.disk = some (err, disk')) :
    (s.after cache src disk').Sound cache content := by
  intro q c hq hfile
  have hgives := (opkgDownloadCache_spec hcache htmp hcall).1 q hq
  by_cases hsame : disk'.files q = s.disk.files q
  · -- the file is as it was
    obtain ⟨u, hu, hc⟩ := h q c hq (hsame ▸ hfile)
    exact ⟨u, (if_neg fun hand => hand.2 hsame).trans hu, hc⟩
  · obtain ⟨c', hc', hfile'⟩ := hgives.resolve_left hsame
    obtain rfl : c' = c := Node.file.inj (Option.some.inj (hfile'.symm.trans hfile))
    refine ⟨src, if_pos ⟨hq, hsame⟩, eq_content_of_canDeliver hdownload h hlocal hfinds hc'⟩

/-- **Whole runs.** -/
theorem sound_of_run (hcache : env.cache = some cache) (htmp : env.tmpDir ≠ cache)
    (hdownload : ∀ k u c, env.download k u = some c → c = content u) (h : CacheRun env cache content s) :
    s.Sound cache content := by
  induction h with
  | start disk hempty => exact fun q c hq hfile => absurd hfile (hempty q c hq)
  | elsewhere _ disk' hsame ih => exact fun q c hq hfile => ih q c hq ((hsame q hq).symm.trans hfile)
  | call _ hlocal hfinds hcall ih => exact sound_after hcache htmp hdownload ih hlocal hfinds hcall

/-- A machine with a cache, where what is at a URL is the URL itself. -/
def cacheEnv : Env := { plainEnv [] with cache := some "/c".toList, download := fun _ src => some src }

/-- The cache is empty. -/
def cacheDisk : Disk where
  files p := if p = "/c".toList then some .dir else none
  asked := 0

theorem cacheDisk_empty (q c : CStr) : cacheDisk.files q ≠ some (.file c) := by
  show (if q = "/c".toList then some Node.dir else none) ≠ _
  split <;> simp

end FirmwareTools.Opkg
