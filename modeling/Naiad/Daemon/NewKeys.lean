import Naiad.Daemon.DomainPull
import Naiad.Db.Interop

/-!
# Naiad.Daemon.NewKeys

The numbers by which a pull tells which files are new to it. A file has a number in each domain from
the moment it has a hash there: its id in the native domain, its sequence number in the other. A
pull reads the highest number handed out, and the next one asks from the beginning for the buckets
of the files with higher ones.

* `Db.Numbered`: the sequence numbers of a database.
* `Renumbers`: what any writer of content rows does to them.
* `new_keys_exact`: **the buckets asked from the beginning are those of the files that came into the
  domain since the marker was read**.
-/

namespace Naiad
namespace Db

open Lib

/-- The sequence number of a content row. -/
def seqOf (db : Db) (f : Nat) : Option (Option Nat) := (db.files.lookup f).map FileRow.sha256Seq

section

variable {db : Db} {f : Nat}

theorem seqOf_updateFile (f' : Nat) {g : FileRow → FileRow} (seq : Option Nat → Option Nat)
    (hg : ∀ row, (g row).sha256Seq = seq row.sha256Seq) :
    (db.updateFile f' g).seqOf f = (db.seqOf f).map fun q => if f = f' then seq q else q := by
  rw [seqOf, lookup_updateFile, seqOf, Option.map_map, Option.map_map]
  congr 1
  funext row
  by_cases h : f = f'
  · simp [h, hg row]
  · simp [h]

theorem seqOf_updateFile_other (f' : Nat) {g : FileRow → FileRow}
    (hg : ∀ row, (g row).sha256Seq = row.sha256Seq) : (db.updateFile f' g).seqOf f = db.seqOf f := by
  rw [seqOf_updateFile f' id hg]
  simp

theorem seqOf_upsertContent (rec : FileRecord) (now : Int) :
    (db.upsertContent rec now).seqOf f =
      if db.fileIdByHash rec.hash = none ∧ f = db.maxFileId + 1 then some none else db.seqOf f := by
  unfold upsertContent
  cases db.fileIdByHash rec.hash with
  | some g =>
    rw [if_neg (by simp)]
    apply seqOf_updateFile_other
    exact fun _ => rfl
  | none =>
    by_cases hf : f = db.maxFileId + 1
    · subst hf
      simp [seqOf, AList.lookup_insert]
    · simp [hf, seqOf, AList.lookup_insert_ne hf]

theorem seqOf_stampSha256 (g : Nat) : (db.stampSha256 g).seqOf f =
    if f = g ∧ db.needsStamp g = true then some (some (db.sha256SeqCounter + 1)) else db.seqOf f := by
  unfold stampSha256
  split
  · rename_i hstamp
    have hupdate : (db.updateFile g fun row =>
        { row with sha256Seq := some (db.sha256SeqCounter + 1) }).seqOf f =
          (db.seqOf f).map fun q => if f = g then some (db.sha256SeqCounter + 1) else q :=
      seqOf_updateFile g _ fun _ => rfl
    refine hupdate.trans ?_
    by_cases hf : f = g
    · subst hf
      rw [if_pos ⟨rfl, hstamp⟩]
      obtain ⟨row, hl, _⟩ := (Option.any_eq_true _ _).1 hstamp
      simp [seqOf, show db.files.lookup f = some row from hl]
    · simp [hf]
  · rename_i hstamp
    rw [if_neg fun h => hstamp h.2]

theorem seqOf_stampSeq (item : Nat × Nat) : (db.stampSeq item).seqOf f =
    (db.seqOf f).map fun q => if f = item.1 then some item.2 else q :=
  seqOf_updateFile item.1 (fun _ => some item.2) fun _ => rfl

theorem seqOf_foldl_updateSha256 (items : List (Nat × Hash)) (db : Db) :
    (items.foldl updateSha256 db).seqOf f = db.seqOf f := by
  induction items generalizing db with
  | nil => rfl
  | cons item items ih =>
    rw [List.foldl_cons, ih]
    exact seqOf_updateFile_other item.1 fun _ => rfl

/-- Each file of a list without repetitions takes its number. -/
theorem seqOf_foldl_stampSeq (items : List (Nat × Nat)) (hnodup : (items.map Prod.fst).Nodup)
    (db : Db) : (items.foldl stampSeq db).seqOf f =
      (db.seqOf f).map fun q => ((items.find? fun item => item.1 = f).map Prod.snd).or q := by
  induction items generalizing db with
  | nil => simp
  | cons item items ih =>
    rw [List.map_cons, List.nodup_cons] at hnodup
    rw [List.foldl_cons, ih hnodup.2, seqOf_stampSeq, Option.map_map]
    congr 1
    funext q
    by_cases hf : item.1 = f
    · have hnone : items.find? (fun item => item.1 = f) = none := by
        rw [List.find?_eq_none]
        intro other hmem
        rw [decide_eq_true_eq]
        rintro rfl
        exact hnodup.1 (hf ▸ List.mem_map_of_mem hmem)
      simp [List.find?_cons_of_pos, hf, hnone]
    · simp [List.find?_cons_of_neg, hf, Ne.symm hf]

/-- The SHA-256 of a content row, if it is known. -/
def shaOf (db : Db) (f : Nat) : Option Hash := (db.interopOf f).bind Prod.snd

theorem needsStamp_iff : db.needsStamp f = true ↔ (db.shaOf f).isSome ∧ db.seqOf f = some none := by
  rw [needsStamp, shaOf, interopOf, seqOf]
  cases db.files.lookup f with
  | none => simp
  | some row => simp

/-- Sequence numbers stand only beside a SHA-256, within the counter, each once. -/
structure Seqs (db : Db) : Prop where
  only : ∀ f n, db.seqOf f = some (some n) → (db.shaOf f).isSome
  bounded : ∀ f n, db.seqOf f = some (some n) → n ≤ db.sha256SeqCounter
  distinct : ∀ f f' n, db.seqOf f = some (some n) → db.seqOf f' = some (some n) → f = f'

/-- And beside each. -/
structure Numbered (db : Db) : Prop extends Seqs db where
  all : ∀ f, (db.shaOf f).isSome → ∃ n, db.seqOf f = some (some n)

/-- What a writer of content rows does to their numbers: a file keeps its number, one that had none
takes one past the counter, and a new file an id past all others. -/
structure Renumbers (db db' : Db) : Prop where
  counter : db.sha256SeqCounter ≤ db'.sha256SeqCounter
  ids : db.maxFileId ≤ db'.maxFileId
  rows : ∀ f hash sha, db.interopOf f = some (hash, sha) → ∃ sha', db'.interopOf f = some (hash, sha')
  kept : ∀ f n, db.seqOf f = some (some n) → db'.seqOf f = some (some n)
  fresh : ∀ f n, db'.seqOf f = some (some n) →
    db.seqOf f = some (some n) ∨ db.sha256SeqCounter < n
  new : ∀ f, (db'.interopOf f).isSome → (db.interopOf f).isSome ∨ db.maxFileId < f

namespace Renumbers

theorem refl (db : Db) : Renumbers db db :=
  ⟨le_rfl, le_rfl, fun _ _ sha h => ⟨sha, h⟩, fun _ _ h => h, fun _ _ h => .inl h,
    fun _ h => .inl h⟩

theorem trans {db db' db'' : Db} (h : Renumbers db db') (h' : Renumbers db' db'') :
    Renumbers db db'' where
  counter := h.counter.trans h'.counter
  ids := h.ids.trans h'.ids
  rows := by
    intro f hash sha hrow
    obtain ⟨sha', hrow'⟩ := h.rows f hash sha hrow
    exact h'.rows f hash sha' hrow'
  kept := fun f n hn => h'.kept f n (h.kept f n hn)
  fresh := by
    intro f n hn
    rcases h'.fresh f n hn with hn' | hlt
    · exact h.fresh f n hn'
    · exact .inr (lt_of_le_of_lt h.counter hlt)
  new := by
    intro f hf
    rcases h'.new f hf with hf' | hlt
    · exact h.new f hf'
    · exact .inr (lt_of_le_of_lt h.ids hlt)

end Renumbers

theorem interopOf_isSome : (db.interopOf f).isSome = (db.seqOf f).isSome := by
  rw [interopOf, seqOf]
  simp

theorem maxFileId_le {db' : Db} (h : ∀ f, (db.interopOf f).isSome → (db'.interopOf f).isSome) :
    db.maxFileId ≤ db'.maxFileId := by
  apply Table.foldr_max_le
  intro f hf
  have hsome : (db'.interopOf f).isSome := by
    apply h
    rw [interopOf, Option.isSome_map]
    exact AList.lookup_isSome.2 (AList.mem_keys.2 hf)
  obtain ⟨c, hc⟩ := Option.isSome_iff_exists.1 hsome
  obtain ⟨row, hl, _⟩ := interopOf_fst hc
  exact lt_maxFileId hl

/-! ## The statements -/

theorem shaOf_eq_some {sha : Hash} :
    db.shaOf f = some sha ↔ ∃ hash, db.interopOf f = some (hash, some sha) := by
  rw [shaOf, Option.bind_eq_some_iff]
  constructor
  · rintro ⟨⟨hash, sha'⟩, h, rfl⟩
    exact ⟨hash, h⟩
  · rintro ⟨hash, h⟩
    exact ⟨_, h, rfl⟩

/-- A row that gains a hash for none has no number yet, and a row that has one keeps some. -/
theorem Seqs.of_views {db' : Db} (h : db.Seqs) (hseq : ∀ f n, db'.seqOf f = some (some n) →
      db.seqOf f = some (some n)) (hsha : ∀ f, (db.shaOf f).isSome → (db'.shaOf f).isSome)
    (hcounter : db'.sha256SeqCounter = db.sha256SeqCounter) : db'.Seqs where
  only := fun f n hn => hsha f (h.only f n (hseq f n hn))
  bounded := by
    intro f n hn
    rw [hcounter]
    exact h.bounded f n (hseq f n hn)
  distinct := fun f f' n hn hn' => h.distinct f f' n (hseq f n hn) (hseq f' n hn')

theorem stampSha256_counter (g : Nat) : (db.stampSha256 g).sha256SeqCounter =
    if db.needsStamp g = true then db.sha256SeqCounter + 1 else db.sha256SeqCounter := by
  unfold stampSha256
  split
  · rfl
  · rfl

theorem shaOf_stampSha256 (g : Nat) : (db.stampSha256 g).shaOf f = db.shaOf f := by
  rw [shaOf, interopOf_stampSha256, shaOf]

theorem Seqs.stampSha256 (h : db.Seqs) (g : Nat) : (db.stampSha256 g).Seqs where
  only := by
    intro f n hn
    rw [shaOf_stampSha256]
    rw [seqOf_stampSha256] at hn
    split at hn
    · rename_i hg
      rw [hg.1]
      exact (needsStamp_iff.1 hg.2).1
    · exact h.only f n hn
  bounded := by
    intro f n hn
    rw [seqOf_stampSha256] at hn
    rw [stampSha256_counter]
    split at hn
    · rename_i hg
      cases hn
      rw [if_pos hg.2]
    · have hle := h.bounded f n hn
      split <;> omega
  distinct := by
    intro f f' n hn hn'
    rw [seqOf_stampSha256] at hn hn'
    split at hn
    · rename_i hg
      cases hn
      split at hn'
      · rename_i hg'
        rw [hg.1, hg'.1]
      · have := h.bounded f' _ hn'
        omega
    · split at hn'
      · cases hn'
        have := h.bounded f _ hn
        omega
      · exact h.distinct f f' n hn hn'

theorem renumbers_stampSha256 (g : Nat) : Renumbers db (db.stampSha256 g) where
  counter := by
    rw [stampSha256_counter]
    split
    · exact Nat.le_succ _
    · exact le_rfl
  ids := maxFileId_le fun f h => by rwa [interopOf_stampSha256]
  rows := fun f hash sha h => ⟨sha, by rw [interopOf_stampSha256, h]⟩
  kept := by
    intro f n hn
    rw [seqOf_stampSha256, if_neg, hn]
    rintro ⟨rfl, hstamp⟩
    rw [(needsStamp_iff.1 hstamp).2] at hn
    cases hn
  fresh := by
    intro f n hn
    rw [seqOf_stampSha256] at hn
    split at hn
    · cases hn
      exact .inr (Nat.lt_succ_self _)
    · exact .inl hn
  new := by
    intro f hf
    rw [interopOf_stampSha256] at hf
    exact .inl hf

theorem upsertContent_counter (rec : FileRecord) (now : Int) :
    (db.upsertContent rec now).sha256SeqCounter = db.sha256SeqCounter := by
  unfold upsertContent
  split
  · rfl
  · rfl

theorem shaOf_upsertContent (rec : FileRecord) (now : Int) (h : (db.shaOf f).isSome) :
    ((db.upsertContent rec now).shaOf f).isSome := by
  obtain ⟨sha, hsha⟩ := Option.isSome_iff_exists.1 h
  obtain ⟨hash, hrow⟩ := shaOf_eq_some.1 hsha
  rw [shaOf, interopOf_upsertContent]
  split
  · rw [hrow]
    cases rec.sha256 with
    | none => simp
    | some sha' => simp [apply_ite Option.isSome]
  · split
    · rename_i hf
      rw [hf, interopOf, lookup_fresh] at hrow
      cases hrow
    · rw [hrow]
      rfl

theorem seqOf_upsertContent_some {rec : FileRecord} {now : Int} {n : Nat}
    (h : (db.upsertContent rec now).seqOf f = some (some n)) : db.seqOf f = some (some n) := by
  rw [seqOf_upsertContent] at h
  split at h
  · cases h
  · exact h

theorem Seqs.upsertContent (h : db.Seqs) (rec : FileRecord) (now : Int) :
    (db.upsertContent rec now).Seqs :=
  h.of_views (fun _ _ => seqOf_upsertContent_some) (fun _ => shaOf_upsertContent rec now)
    (upsertContent_counter rec now)

theorem renumbers_upsertContent (rec : FileRecord) (now : Int) :
    Renumbers db (db.upsertContent rec now) where
  counter := (upsertContent_counter rec now).ge
  ids := by
    apply maxFileId_le
    intro f hf
    obtain ⟨c, hc⟩ := Option.isSome_iff_exists.1 hf
    rw [interopOf_upsertContent, hc]
    split
    · rfl
    · split <;> rfl
  rows := by
    intro f hash sha h
    rw [interopOf_upsertContent, h]
    split
    · exact ⟨_, rfl⟩
    · split
      · rename_i hf
        rw [hf, interopOf, lookup_fresh] at h
        cases h
      · exact ⟨sha, rfl⟩
  kept := by
    intro f n hn
    rw [seqOf_upsertContent, if_neg, hn]
    rintro ⟨_, rfl⟩
    rw [seqOf, lookup_fresh] at hn
    cases hn
  fresh := fun f n hn => .inl (seqOf_upsertContent_some hn)
  new := by
    intro f hf
    rw [interopOf_isSome, seqOf_upsertContent] at hf
    rw [interopOf_isSome]
    split at hf
    · rename_i hnew
      rw [hnew.2]
      exact .inr (Nat.lt_succ_self _)
    · exact .inl hf

/-! ## The writers -/

theorem interopOf_upsertLocation (g : Nat) (rec : FileRecord) (marker : Nat) :
    (db.upsertLocation g rec marker).interopOf f = db.interopOf f := rfl

/-- Every row but one has a number beside its SHA-256, and so has that one once it is stamped. -/
theorem Seqs.stamped {g : Nat} (h : db.Seqs)
    (hall : ∀ f, f ≠ g → (db.shaOf f).isSome → ∃ n, db.seqOf f = some (some n)) :
    (db.stampSha256 g).Numbered where
  toSeqs := h.stampSha256 g
  all := by
    intro f hf
    rw [shaOf_stampSha256] at hf
    rw [seqOf_stampSha256]
    by_cases hg : f = g
    · by_cases hstamp : db.needsStamp g = true
      · exact ⟨_, if_pos ⟨hg, hstamp⟩⟩
      · rw [if_neg fun hc => hstamp hc.2]
        cases hseq : db.seqOf f with
        | none =>
          obtain ⟨sha, hsha⟩ := Option.isSome_iff_exists.1 hf
          obtain ⟨hash, hrow⟩ := shaOf_eq_some.1 hsha
          have hsome := @interopOf_isSome db f
          rw [hrow, hseq] at hsome
          cases hsome
        | some q =>
          cases q with
          | some n => exact ⟨n, rfl⟩
          | none => exact absurd (needsStamp_iff.2 ⟨hg ▸ hf, hg ▸ hseq⟩) hstamp
    · rw [if_neg fun hc => hg hc.1]
      exact hall f hg hf

theorem numbered_upsertLocation {g : Nat} (rec : FileRecord) (marker : Nat) (h : db.Numbered) :
    (db.upsertLocation g rec marker).Numbered := ⟨⟨h.only, h.bounded, h.distinct⟩, h.all⟩

/-- Another row than the imported one is as it was. -/
theorem shaOf_upsertContent_ne {rec : FileRecord} {now : Int} (hf : f ≠ db.importId rec.hash) :
    (db.upsertContent rec now).shaOf f = db.shaOf f := by
  rw [shaOf, interopOf_upsertContent, shaOf]
  rw [importId] at hf
  cases hid : db.fileIdByHash rec.hash with
  | some g =>
    rw [hid, Option.getD_some] at hf
    cases db.interopOf f with
    | none => rfl
    | some c => simp [hf]
  | none =>
    rw [hid, Option.getD_none] at hf
    simp [hf]

theorem Numbered.insertFile (h : db.Numbered) (hc : db.FileConstraints) (rec : FileRecord)
    (marker : Nat) (now : Int) : (db.insertFile rec marker now).Numbered := by
  rw [insertFile_eq hc]
  apply numbered_upsertLocation
  refine (h.toSeqs.upsertContent rec now).stamped ?_
  intro f hne hsha
  rw [shaOf_upsertContent_ne hne] at hsha
  obtain ⟨n, hn⟩ := h.all f hsha
  exact ⟨n, (renumbers_upsertContent rec now).kept f n hn⟩

theorem renumbers_insertFile (hc : db.FileConstraints) (rec : FileRecord) (marker : Nat)
    (now : Int) : Renumbers db (db.insertFile rec marker now) := by
  rw [insertFile_eq hc]
  have hstamped := (@renumbers_upsertContent db rec now).trans
    (renumbers_stampSha256 (db.importId rec.hash))
  exact ⟨hstamped.counter, hstamped.ids, hstamped.rows, hstamped.kept, hstamped.fresh,
    hstamped.new⟩

theorem seqOf_updateMetadata (hash : Hash) (m : FileMetadata) :
    (db.updateMetadata hash m).seqOf f = db.seqOf f := by
  have hl : (db.updateMetadata hash m).files.lookup f = _ := Table.lookup_modify _ _ _
  rw [seqOf, hl, seqOf, Option.map_map]
  congr 1
  funext row
  by_cases h : row.blake3 = hash
  · simp [h]
  · simp [h]

theorem Numbered.updateMetadata (h : db.Numbered) (hash : Hash) (m : FileMetadata) :
    (db.updateMetadata hash m).Numbered := by
  have hsha : ∀ f, (db.updateMetadata hash m).shaOf f = db.shaOf f := by
    intro f
    rw [shaOf, interopOf_updateMetadata, shaOf]
  refine ⟨h.toSeqs.of_views ?_ ?_ rfl, ?_⟩
  · intro f n hn
    rwa [seqOf_updateMetadata] at hn
  · intro f hf
    rwa [hsha]
  · intro f hf
    rw [hsha] at hf
    rw [seqOf_updateMetadata]
    exact h.all f hf

theorem renumbers_updateMetadata (hash : Hash) (m : FileMetadata) :
    Renumbers db (db.updateMetadata hash m) where
  counter := le_rfl
  ids := maxFileId_le fun f h => by rwa [interopOf_updateMetadata]
  rows := fun f hash' sha h => ⟨sha, by rw [interopOf_updateMetadata, h]⟩
  kept := by
    intro f n hn
    rwa [seqOf_updateMetadata]
  fresh := by
    intro f n hn
    rw [seqOf_updateMetadata] at hn
    exact .inl hn
  new := by
    intro f hf
    rw [interopOf_updateMetadata] at hf
    exact .inl hf

/-! ## A batch of SHA-256 values -/

theorem foldl_sha_isSome (items : List (Nat × Hash)) (old : Option Hash) :
    (items.foldl (fun sha item => if f = item.1 then some item.2 else sha) old).isSome =
      (old.isSome || decide (f ∈ items.map Prod.fst)) := by
  induction items generalizing old with
  | nil => simp
  | cons item items ih =>
    rw [List.foldl_cons, ih, List.map_cons]
    by_cases hf : f = item.1
    · simp [hf]
    · have hbeq : (f == item.1) = false := by simp [hf]
      simp [hf, hbeq]

theorem shaOf_foldl_updateSha256 (items : List (Nat × Hash)) :
    ((items.foldl updateSha256 db).shaOf f).isSome =
      ((db.interopOf f).isSome && ((db.shaOf f).isSome || decide (f ∈ items.map Prod.fst))) := by
  rw [shaOf, interopOf_foldl_updateSha256, shaOf]
  cases db.interopOf f with
  | none => rfl
  | some c => simp [foldl_sha_isSome]

theorem foldl_updateSha256_counter (items : List (Nat × Hash)) (db : Db) :
    (items.foldl updateSha256 db).sha256SeqCounter = db.sha256SeqCounter := by
  induction items generalizing db with
  | nil => rfl
  | cons item items ih => rw [List.foldl_cons, ih]; rfl

theorem foldl_stampSeq_counter (items : List (Nat × Nat)) (db : Db) :
    (items.foldl stampSeq db).sha256SeqCounter = db.sha256SeqCounter := by
  induction items generalizing db with
  | nil => rfl
  | cons item items ih => rw [List.foldl_cons, ih]; rfl

/-- The number a reserved range gives to an id, by its place among the ids. -/
def reserved (ids : List Nat) (base f : Nat) : Option Nat :=
  ((ids.zipIdx base).find? fun item => item.1 = f).map Prod.snd

theorem reserved_eq_some {ids : List Nat} {base n : Nat} (h : reserved ids base f = some n) :
    base ≤ n ∧ n < base + ids.length ∧ ids[n - base]? = some f := by
  obtain ⟨⟨f', n'⟩, hfind, rfl⟩ := Option.map_eq_some_iff.1 h
  have hf : f' = f := by simpa using List.find?_some hfind
  obtain ⟨hle, hlt, hget⟩ := List.mem_zipIdx (List.mem_of_find?_eq_some hfind)
  subst hf
  exact ⟨hle, hlt, by rw [hget, List.getElem?_eq_getElem]⟩

theorem reserved_isSome {ids : List Nat} {base : Nat} (h : f ∈ ids) :
    ∃ n, reserved ids base f = some n := by
  obtain ⟨i, hi⟩ := List.mem_iff_getElem?.1 h
  have hmem : (f, base + i) ∈ ids.zipIdx base := List.mem_zipIdx_iff_le_and_getElem?_sub.2
    ⟨Nat.le_add_right _ _, by simpa using hi⟩
  rw [reserved]
  cases hfind : (ids.zipIdx base).find? fun item => item.1 = f with
  | none =>
    have := List.find?_eq_none.1 hfind _ hmem
    simp at this
  | some item => exact ⟨item.2, rfl⟩

theorem seqOf_setSha256Batch (items : List (Nat × Hash)) :
    (db.setSha256Batch items).seqOf f =
      (db.seqOf f).map fun q =>
        (reserved ((items.foldl updateSha256 db).toStamp items) (db.sha256SeqCounter + 1) f).or q := by
  have hnodup : ((((items.foldl updateSha256 db).toStamp items).zipIdx
      ((items.foldl updateSha256 db).sha256SeqCounter + 1)).map Prod.fst).Nodup := by
    rw [List.zipIdx_map_fst]
    exact sortDedup_nodup _
  refine (seqOf_foldl_stampSeq _ hnodup _).trans ?_
  rw [seqOf_foldl_updateSha256, foldl_updateSha256_counter]
  rfl

/-- The rows a batch numbers: those with a hash and no number. -/
theorem mem_toStamp {items : List (Nat × Hash)} : f ∈ db.toStamp items ↔
    f ∈ items.map Prod.fst ∧ (db.shaOf f).isSome ∧ db.seqOf f = some none := by
  rw [toStamp, mem_sortDedup, List.mem_filter, needsStamp_iff]

theorem setSha256Batch_counter (items : List (Nat × Hash)) :
    (db.setSha256Batch items).sha256SeqCounter =
      db.sha256SeqCounter + ((items.foldl updateSha256 db).toStamp items).length := by
  show (items.foldl updateSha256 db).sha256SeqCounter + _ = _
  rw [foldl_updateSha256_counter]

theorem shaOf_setSha256Batch (items : List (Nat × Hash)) :
    (db.setSha256Batch items).shaOf f = (items.foldl updateSha256 db).shaOf f := by
  rw [shaOf, interopOf_setSha256Batch, shaOf, interopOf_foldl_updateSha256]

/-- A number after a batch is an old one, or one of the reserved range. -/
theorem seqOf_setSha256Batch_some {items : List (Nat × Hash)} {n : Nat}
    (h : (db.setSha256Batch items).seqOf f = some (some n)) :
    db.seqOf f = some (some n) ∨
      reserved ((items.foldl updateSha256 db).toStamp items) (db.sha256SeqCounter + 1) f = some n ∧
        db.seqOf f = some none := by
  rw [seqOf_setSha256Batch] at h
  obtain ⟨q, hq, hor⟩ := Option.map_eq_some_iff.1 h
  rcases Option.or_eq_some_iff.1 hor with hres | ⟨_, rfl⟩
  · right
    refine ⟨hres, ?_⟩
    have hmem := List.mem_of_getElem? (reserved_eq_some hres).2.2
    have hnone := (mem_toStamp.1 hmem).2.2
    rwa [seqOf_foldl_updateSha256] at hnone
  · exact .inl hq

theorem renumbers_setSha256Batch (items : List (Nat × Hash)) :
    Renumbers db (db.setSha256Batch items) where
  counter := by
    rw [setSha256Batch_counter]
    exact Nat.le_add_right _ _
  ids := by
    apply maxFileId_le
    intro f hf
    rwa [interopOf_setSha256Batch, Option.isSome_map]
  rows := by
    intro f hash sha h
    rw [interopOf_setSha256Batch, h]
    exact ⟨_, rfl⟩
  kept := by
    intro f n hn
    rw [seqOf_setSha256Batch, hn, Option.map_some]
    cases hres : reserved ((items.foldl updateSha256 db).toStamp items)
        (db.sha256SeqCounter + 1) f with
    | none => rfl
    | some n' =>
      have hmem := List.mem_of_getElem? (reserved_eq_some hres).2.2
      have hnone := (mem_toStamp.1 hmem).2.2
      rw [seqOf_foldl_updateSha256, hn] at hnone
      cases hnone
  fresh := by
    intro f n hn
    rcases seqOf_setSha256Batch_some hn with hold | ⟨hres, _⟩
    · exact .inl hold
    · have := (reserved_eq_some hres).1
      exact .inr (by omega)
  new := by
    intro f hf
    rw [interopOf_setSha256Batch, Option.isSome_map] at hf
    exact .inl hf

theorem Numbered.setSha256Batch (h : db.Numbered) (items : List (Nat × Hash)) :
    (db.setSha256Batch items).Numbered where
  only := by
    intro f n hn
    rw [shaOf_setSha256Batch]
    rcases seqOf_setSha256Batch_some hn with hold | ⟨hres, _⟩
    · have hrow := @interopOf_isSome db f
      rw [hold] at hrow
      rw [shaOf_foldl_updateSha256, hrow, h.only f n hold]
      rfl
    · exact (mem_toStamp.1 (List.mem_of_getElem? (reserved_eq_some hres).2.2)).2.1
  bounded := by
    intro f n hn
    rw [setSha256Batch_counter]
    rcases seqOf_setSha256Batch_some hn with hold | ⟨hres, _⟩
    · have := h.bounded f n hold
      omega
    · have := (reserved_eq_some hres).2.1
      omega
  distinct := by
    intro f f' n hn hn'
    rcases seqOf_setSha256Batch_some hn with hold | ⟨hres, _⟩
    · rcases seqOf_setSha256Batch_some hn' with hold' | ⟨hres', _⟩
      · exact h.distinct f f' n hold hold'
      · have := h.bounded f n hold
        have := (reserved_eq_some hres').1
        omega
    · rcases seqOf_setSha256Batch_some hn' with hold' | ⟨hres', _⟩
      · have := h.bounded f' n hold'
        have := (reserved_eq_some hres).1
        omega
      · have hf := (reserved_eq_some hres).2.2
        rw [(reserved_eq_some hres').2.2] at hf
        exact (Option.some.inj hf).symm
  all := by
    intro f hf
    rw [shaOf_setSha256Batch] at hf
    have hboth := hf
    rw [shaOf_foldl_updateSha256, Bool.and_eq_true, Bool.or_eq_true, decide_eq_true_eq] at hboth
    obtain ⟨hrow, hcases⟩ := hboth
    rw [interopOf_isSome] at hrow
    obtain ⟨q, hq⟩ := Option.isSome_iff_exists.1 hrow
    cases q with
    | some n => exact ⟨n, (renumbers_setSha256Batch items).kept f n hq⟩
    | none =>
      rcases hcases with hold | hitem
      · obtain ⟨n, hn⟩ := h.all f hold
        rw [hq] at hn
        cases hn
      · have hmem : f ∈ (items.foldl updateSha256 db).toStamp items :=
          mem_toStamp.2 ⟨hitem, hf, by rw [seqOf_foldl_updateSha256, hq]⟩
        obtain ⟨n, hn⟩ := @reserved_isSome f _ (db.sha256SeqCounter + 1) hmem
        exact ⟨n, by rw [seqOf_setSha256Batch, hq, Option.map_some, hn]; rfl⟩

/-! ## Runs of the writers -/

inductive FileWrite
  | insertFile (rec : FileRecord) (scanMarker : Nat) (now : Int)
  | updateMetadata (hash : Hash) (m : FileMetadata)
  | setSha256Batch (items : List (Nat × Hash))

/-- Whatever writes content rows. -/
def writeFile (db : Db) : FileWrite → Db
  | .insertFile rec scanMarker now => db.insertFile rec scanMarker now
  | .updateMetadata hash m => db.updateMetadata hash m
  | .setSha256Batch items => db.setSha256Batch items

theorem contentOf_foldl_updateSha256 (items : List (Nat × Hash)) (db : Db) :
    (items.foldl updateSha256 db).contentOf f = db.contentOf f ∧
      (items.foldl updateSha256 db).locations = db.locations := by
  induction items generalizing db with
  | nil => exact ⟨rfl, rfl⟩
  | cons item items ih =>
    have hitem : (db.updateSha256 item).contentOf f = db.contentOf f := by
      apply contentOf_updateFile
      exact fun _ => ⟨rfl, rfl⟩
    exact ⟨(ih _).1.trans hitem, (ih _).2⟩

theorem contentOf_foldl_stampSeq (items : List (Nat × Nat)) (db : Db) :
    (items.foldl stampSeq db).contentOf f = db.contentOf f ∧
      (items.foldl stampSeq db).locations = db.locations := by
  induction items generalizing db with
  | nil => exact ⟨rfl, rfl⟩
  | cons item items ih =>
    have hitem : (db.stampSeq item).contentOf f = db.contentOf f := by
      apply contentOf_updateFile
      exact fun _ => ⟨rfl, rfl⟩
    exact ⟨(ih _).1.trans hitem, (ih _).2⟩

theorem fileConstraints_setSha256Batch (hc : db.FileConstraints) (items : List (Nat × Hash)) :
    (db.setSha256Batch items).FileConstraints := by
  have hcontent : ∀ f, (db.setSha256Batch items).contentOf f = db.contentOf f := fun f =>
    ((contentOf_foldl_stampSeq _ _).1.trans (contentOf_foldl_updateSha256 items db).1 :
      (db.setSha256Batch items).contentOf f = _)
  have hlocations : (db.setSha256Batch items).locations = db.locations :=
    (@contentOf_foldl_stampSeq 0 _ _).2.trans (@contentOf_foldl_updateSha256 0 items db).2
  rw [fileConstraints_iff] at hc ⊢
  simp only [hcontent, hlocations]
  exact hc

/-- What the schema and the writers keep of the content rows. -/
structure FilesKept (db : Db) : Prop where
  constraints : db.FileConstraints
  numbered : db.Numbered

theorem filesKept_empty : empty.FilesKept := by
  refine ⟨⟨?_, ?_⟩, ⟨⟨?_, ?_, ?_⟩, ?_⟩⟩
  · intro f g row row' hl
    cases hl
  · intro f p loc hl
    cases hl
  · intro f n hn
    cases hn
  · intro f n hn
    cases hn
  · intro f f' n hn
    cases hn
  · intro f hf
    cases hf

theorem FilesKept.write (h : db.FilesKept) (w : FileWrite) : (db.writeFile w).FilesKept := by
  cases w with
  | insertFile rec scanMarker now =>
    exact ⟨fileConstraints_insertFile rec now h.constraints scanMarker,
      h.numbered.insertFile h.constraints rec scanMarker now⟩
  | updateMetadata hash m =>
    exact ⟨fileConstraints_updateMetadata h.constraints hash m, h.numbered.updateMetadata hash m⟩
  | setSha256Batch items =>
    exact ⟨fileConstraints_setSha256Batch h.constraints items, h.numbered.setSha256Batch items⟩

theorem renumbers_write (h : db.FilesKept) (w : FileWrite) : Renumbers db (db.writeFile w) := by
  cases w with
  | insertFile rec scanMarker now => exact renumbers_insertFile h.constraints rec scanMarker now
  | updateMetadata hash m => exact renumbers_updateMetadata hash m
  | setSha256Batch items => exact renumbers_setSha256Batch items

theorem filesKept_run (h : db.FilesKept) (ws : List FileWrite) :
    (run writeFile db ws).FilesKept := run_invariant ws h fun _ w h => h.write w

theorem renumbers_run (h : db.FilesKept) (ws : List FileWrite) :
    Renumbers db (run writeFile db ws) := by
  induction ws generalizing db with
  | nil => exact .refl db
  | cons w ws ih => exact (renumbers_write h w).trans (ih (h.write w))

end

end Db

namespace Daemon

open Lib Netproto Db

section

variable {db : Naiad.Db}

/-- The number a file has in a domain. -/
def keyNumber (domain : HashDomain) (f : Nat) (row : FileRow) : Option Nat :=
  match domain with
  | .blake3 => some f
  | .sha256 => row.sha256Seq

/-- A file has a hash in a domain, and a number there. -/
def Keyed (domain : HashDomain) (db : Naiad.Db) (f : Nat) (hash : Hash) (n : Nat) : Prop :=
  ∃ row, db.files.lookup f = some row ∧ domainKey domain row = some hash ∧
    keyNumber domain f row = some n

theorem seqOf_eq_some {f : Nat} {q : Option Nat} :
    db.seqOf f = some q ↔ ∃ row, db.files.lookup f = some row ∧ row.sha256Seq = q := by
  rw [seqOf, Option.map_eq_some_iff]

theorem shaOf_row {f : Nat} {row : FileRow} (h : db.files.lookup f = some row) :
    db.shaOf f = row.sha256 := by
  rw [shaOf, interopOf, h]
  rfl

/-- Every file with a hash in a domain has a number there, at most the highest handed out. -/
theorem keyed_of_key (h : db.Numbered) {domain : HashDomain} {f : Nat} {row : FileRow} {hash : Hash}
    (hl : db.files.lookup f = some row) (hkey : domainKey domain row = some hash) :
    ∃ n, Keyed domain db f hash n ∧ n ≤ maxMarker db domain := by
  cases domain with
  | blake3 => exact ⟨f, ⟨row, hl, hkey, rfl⟩, lt_maxFileId hl⟩
  | sha256 =>
    have hsha : (db.shaOf f).isSome := by
      rw [shaOf_row hl, show row.sha256 = some hash from hkey]
      rfl
    obtain ⟨n, hn⟩ := h.all f hsha
    obtain ⟨row', hl', hseq⟩ := seqOf_eq_some.1 hn
    obtain rfl : row = row' := Option.some.inj (hl.symm.trans hl')
    exact ⟨n, ⟨row, hl, hkey, hseq⟩, h.bounded f n hn⟩

theorem mem_newKeys {domain : HashDomain} {bits marker : Nat} {key : String} :
    key ∈ newKeys db domain bits marker ↔
      ∃ f hash n, Keyed domain db f hash n ∧ marker < n ∧ bucketKey hash bits = key := by
  rw [newKeys, mem_sortDedup, List.mem_filterMap]
  constructor
  · rintro ⟨e, he, hkey⟩
    have hl := Table.mem_entries.1 he
    cases domain with
    | blake3 =>
      simp only at hkey
      split at hkey
      · cases hkey
        exact ⟨e.1, e.2.blake3, e.1, ⟨e.2, hl, rfl, rfl⟩, by assumption, rfl⟩
      · cases hkey
    | sha256 =>
      simp only at hkey
      split at hkey
      · rename_i hseq
        obtain ⟨n, hn, hlt⟩ := (Option.any_eq_true _ _).1 hseq
        obtain ⟨hash, hhash, rfl⟩ := Option.map_eq_some_iff.1 hkey
        exact ⟨e.1, hash, n, ⟨e.2, hl, hhash, hn⟩, by simpa using hlt, rfl⟩
      · cases hkey
  · rintro ⟨f, hash, n, ⟨row, hl, hkey, hn⟩, hlt, rfl⟩
    refine ⟨⟨f, row⟩, Table.mem_entries.2 hl, ?_⟩
    cases domain with
    | blake3 =>
      cases hkey
      cases hn
      simp [hlt]
    | sha256 =>
      have hseq : row.sha256Seq = some n := hn
      have hsha : row.sha256 = some hash := hkey
      simp [hseq, hsha, hlt]

/-- A number past those of an earlier database is of a file that came into the domain since. -/
theorem number_fresh {db' : Naiad.Db} (hnum : db.Numbered) (hrenum : Renumbers db db')
    {domain : HashDomain} {f : Nat} {hash : Hash} {n : Nat} (h : Keyed domain db' f hash n) :
    maxMarker db domain < n ↔
      ∀ row, db.files.lookup f = some row → domainKey domain row = none := by
  obtain ⟨row', hl', _, hn⟩ := h
  cases domain with
  | blake3 =>
    cases hn
    show db.maxFileId < f ↔ _
    constructor
    · intro hlt row hl
      have := lt_maxFileId hl
      omega
    · intro hnone
      have hrow : (db'.interopOf f).isSome := by
        rw [interopOf, hl']
        rfl
      rcases hrenum.new f hrow with hold | hlt
      · obtain ⟨c, hc⟩ := Option.isSome_iff_exists.1 hold
        obtain ⟨row, hl, _⟩ := interopOf_fst hc
        cases hnone row hl
      · exact hlt
  | sha256 =>
    have hseq' : db'.seqOf f = some (some n) := seqOf_eq_some.2 ⟨row', hl', hn⟩
    show db.sha256SeqCounter < n ↔ _
    constructor
    · intro hlt row hl
      cases hsha : domainKey .sha256 row with
      | none => rfl
      | some sha =>
        exfalso
        have hsome : (db.shaOf f).isSome := by
          rw [shaOf_row hl, show row.sha256 = some sha from hsha]
          rfl
        obtain ⟨m, hm⟩ := hnum.all f hsome
        have hkept := hrenum.kept f m hm
        rw [hseq'] at hkept
        cases hkept
        have := hnum.bounded f n hm
        omega
    · intro hnone
      rcases hrenum.fresh f n hseq' with hold | hlt
      · obtain ⟨row, hl, _⟩ := seqOf_eq_some.1 hold
        have hsome := hnum.only f n hold
        rw [shaOf_row hl, show row.sha256 = none from hnone row hl] at hsome
        cases hsome
      · exact hlt

/-- **A pull that has read the marker of an earlier database asks from the beginning for exactly the
buckets of the files that have come into the domain since, whatever has been imported, scanned again
and hashed in between.** -/
theorem new_keys_exact (earlier later : List FileWrite) (domain : HashDomain) (bits : Nat)
    (key : String) :
    key ∈ newKeys (run Db.writeFile .empty (earlier ++ later)) domain bits
        (maxMarker (run Db.writeFile .empty earlier) domain) ↔
      ∃ f row hash, (run Db.writeFile .empty (earlier ++ later)).files.lookup f = some row ∧
        domainKey domain row = some hash ∧ bucketKey hash bits = key ∧
        ∀ old, (run Db.writeFile .empty earlier).files.lookup f = some old →
          domainKey domain old = none := by
  have hearlier := filesKept_run filesKept_empty earlier
  have hlater := filesKept_run hearlier later
  have hrenum := renumbers_run hearlier later
  rw [run_append, mem_newKeys]
  constructor
  · rintro ⟨f, hash, n, hkeyed, hlt, hkey⟩
    obtain ⟨row, hl, hhash, _⟩ := id hkeyed
    exact ⟨f, row, hash, hl, hhash, hkey,
      (number_fresh hearlier.numbered hrenum hkeyed).1 hlt⟩
  · rintro ⟨f, row, hash, hl, hhash, hkey, hnone⟩
    obtain ⟨n, hkeyed, _⟩ := keyed_of_key hlater.numbered hl hhash
    exact ⟨f, hash, n, hkeyed, (number_fresh hearlier.numbered hrenum hkeyed).2 hnone, hkey⟩

end

end Daemon
end Naiad
