import Naiad.Lib.Leb128
import Naiad.Lib.Sort

/-!
# Naiad.Bridge.TagIds

The ids of the tags of a hash as the sidecar stores them: sorted without duplicates, the first one
and then the differences, each in groups of seven bits.

* `readUvarint_eq_ok`: a number is read just where the bytes spell one of 64 bits.
* `unpackTagIds_eq_ok`: a blob is read as the running sums of the numbers that it spells.
* `tag_ids_codec`: packing and reading back sorts and deduplicates; no id is ever wrapped.
-/

namespace Naiad
namespace Bridge

open Lib

/-! ## One number -/

/-- What is pushed for `v`. -/
def writeUvarint (v : Nat) : List Byte :=
  if v >>> 7 ≠ 0 then Fin.ofNat 256 ((v &&& 0x7f) ||| 0x80) :: writeUvarint (v >>> 7)
  else [Fin.ofNat 256 (v &&& 0x7f)]
termination_by v
decreasing_by
  rw [shiftRight_seven] at *
  omega

/-- The loop of `readUvarint`, after `bytes` bytes. -/
def readUvarintFrom (buf : List Byte) (start pos result shift bytes : Nat) :
    Except String (Nat × Nat) :=
  match buf[pos]? with
  | none => .error s!"varint truncated at offset {pos}"
  | some byte =>
    if 10 < bytes + 1 then .error s!"varint overlong (>10 bytes) at offset {start}"
    else if shift = 63 ∧ 1 < byte.val &&& 0x7f then
      .error s!"varint overflows u64 at offset {start}"
    else
      let read := result ||| (byte.val &&& 0x7f) <<< shift % 2 ^ 64
      if byte.val &&& 0x80 = 0 then .ok (read, pos + 1)
      else readUvarintFrom buf start (pos + 1) read (shift + 7) (bytes + 1)
termination_by 11 - bytes

/-- The number at `pos`, and the position after it. -/
def readUvarint (buf : List Byte) (pos : Nat) : Except String (Nat × Nat) :=
  readUvarintFrom buf pos pos 0 0 0

theorem writeUvarint_eq (v : Nat) :
    writeUvarint v =
      if 128 ≤ v then Fin.ofNat 256 (v % 128 + 128) :: writeUvarint (v / 128)
      else [Fin.ofNat 256 v] := by
  rw [writeUvarint, shiftRight_seven, and_seven, or_high (Nat.mod_lt _ (by omega))]
  by_cases h : 128 ≤ v
  · rw [if_pos h, if_pos (by omega)]
  · rw [if_neg h, if_neg (by omega), Nat.mod_eq_of_lt (by omega)]

theorem leb_writeUvarint (v : Nat) : Leb (writeUvarint v) := by
  induction v using Nat.strongRecOn with
  | ind v ih =>
    rw [writeUvarint_eq]
    split
    · apply Leb.more
      · simp only [Fin.val_ofNat]
        omega
      · exact ih (v / 128) (by omega)
    · apply Leb.last
      simp only [Fin.val_ofNat]
      omega

theorem lebValue_writeUvarint (v : Nat) : lebValue (writeUvarint v) = v := by
  induction v using Nat.strongRecOn with
  | ind v ih =>
    rw [writeUvarint_eq]
    split
    · rw [lebValue_cons, ih (v / 128) (by omega), Fin.val_ofNat]
      omega
    · rw [lebValue_singleton, Fin.val_ofNat]
      omega

theorem length_writeUvarint {v n : Nat} (h : v < 128 ^ (n + 1)) :
    (writeUvarint v).length ≤ n + 1 := by
  induction n generalizing v with
  | zero =>
    rw [writeUvarint_eq, if_neg (by omega)]
    simp
  | succ n ih =>
    rw [writeUvarint_eq]
    split
    · have hdiv : v / 128 < 128 ^ (n + 1) := by
        rw [Nat.pow_succ] at h
        omega
      have hlen := ih hdiv
      rw [List.length_cons]
      omega
    · simp

/-- A group that passes the guard fits above the bits read so far. -/
theorem group_fits {d bytes : Nat} (hd : d < 128) (hbytes : bytes ≤ 9)
    (hguard : ¬(7 * bytes = 63 ∧ 1 < d)) : (d + 1) * 2 ^ (7 * bytes) ≤ 2 ^ 64 := by
  by_cases hlast : bytes = 9
  · subst hlast
    have hbit : d ≤ 1 := by omega
    omega
  · calc (d + 1) * 2 ^ (7 * bytes) ≤ 128 * 2 ^ 56 :=
          Nat.mul_le_mul (by omega) (Nat.pow_le_pow_right (by omega) (by omega))
      _ ≤ 2 ^ 64 := by omega

/-- After `bytes` bytes with the value `result`, the bytes at `pos` are the rest of one number of 64
bits; `r` is the number and the position behind it. -/
def ReadsRest (buf : List Byte) (pos result bytes : Nat) (r : Nat × Nat) : Prop :=
  ∃ bs rest, buf.drop pos = bs ++ rest ∧ Leb bs ∧ bytes + bs.length ≤ 10 ∧
    r.1 = result + 2 ^ (7 * bytes) * lebValue bs ∧ r.1 < 2 ^ 64 ∧ r.2 = pos + bs.length

section

variable {buf tail : List Byte} {b : Byte} {pos result bytes : Nat} {r : Nat × Nat}

theorem not_readsRest_ten (hbytes : 10 ≤ bytes) : ¬ ReadsRest buf pos result bytes r := by
  rintro ⟨bs, rest, _, hleb, hlen, _⟩
  have hpos := hleb.length_pos
  omega

theorem not_readsRest_end (hdrop : buf.drop pos = []) : ¬ ReadsRest buf pos result bytes r := by
  rintro ⟨bs, rest, hnil, hleb, _⟩
  have hpos := hleb.length_pos
  rw [hdrop] at hnil
  obtain ⟨rfl, _⟩ := List.append_eq_nil_iff.1 hnil.symm
  simp at hpos

/-- The tenth byte holds one bit. -/
theorem not_readsRest_wide (hdrop : buf.drop pos = b :: tail) (hwide : 1 < b.val % 128) :
    ¬ ReadsRest buf pos result 9 r := by
  rintro ⟨bs, rest, heq, hleb, hlen, hval, hlt, _⟩
  rw [hdrop] at heq
  match bs, heq, hleb, hlen, hval with
  | [_], heq, _, _, hval =>
    cases heq
    rw [lebValue_singleton] at hval
    omega
  | [], _, hleb, _, _ => cases hleb
  | _ :: _ :: _, _, _, hlen, _ =>
    simp only [List.length_cons] at hlen
    omega

theorem readsRest_last (hdrop : buf.drop pos = b :: tail) (hb : b.val < 128) (hbytes : bytes < 10)
    (hfits : result + 2 ^ (7 * bytes) * (b.val % 128) < 2 ^ 64) :
    ReadsRest buf pos result bytes r ↔ (result + 2 ^ (7 * bytes) * (b.val % 128), pos + 1) = r := by
  constructor
  · rintro ⟨bs, rest, heq, hleb, _, hval, _, hpos⟩
    rw [hdrop] at heq
    cases bs with
    | nil => cases hleb
    | cons b' bs =>
      cases heq
      rcases hleb.cons_inv with ⟨_, rfl⟩ | ⟨hmore, _⟩
      · rw [lebValue_singleton] at hval
        rw [← hval, ← show r.2 = pos + 1 from hpos]
      · omega
  · rintro rfl
    exact ⟨[b], tail, hdrop, .last hb, by simp; omega, rfl, hfits, rfl⟩

theorem readsRest_more (hdrop : buf.drop pos = b :: tail) (hb : 128 ≤ b.val) :
    ReadsRest buf pos result bytes r ↔
      ReadsRest buf (pos + 1) (result + 2 ^ (7 * bytes) * (b.val % 128)) (bytes + 1) r := by
  have htail : buf.drop (pos + 1) = tail := by
    rw [← List.drop_drop, hdrop]
    rfl
  have hpow : 2 ^ (7 * (bytes + 1)) = 128 * 2 ^ (7 * bytes) := by
    rw [Nat.mul_add, Nat.pow_add]
    omega
  rw [ReadsRest, ReadsRest, hdrop, htail, hpow]
  constructor
  · rintro ⟨bs, rest, heq, hleb, hlen, hval, hlt, hpos⟩
    cases bs with
    | nil => cases hleb
    | cons b' bs =>
      cases heq
      rcases hleb.cons_inv with ⟨hlast, _⟩ | ⟨_, hleb⟩
      · omega
      · rw [List.length_cons] at hlen hpos
        refine ⟨bs, rest, rfl, hleb, by omega, ?_, hlt, by omega⟩
        rw [hval, lebValue_cons]
        ring
  · rintro ⟨bs, rest, heq, hleb, hlen, hval, hlt, hpos⟩
    refine ⟨b :: bs, rest, by rw [heq]; rfl, .more hb hleb, by simp; omega, ?_, hlt,
      by simp; omega⟩
    rw [hval, lebValue_cons]
    ring

/-- After `bytes` bytes the loop reads the rest of one number, if the number has 64 bits. -/
theorem readUvarintFrom_eq_ok {start : Nat} (hbytes : bytes ≤ 10)
    (hlow : result < 2 ^ (7 * bytes)) :
    readUvarintFrom buf start pos result (7 * bytes) bytes = .ok r ↔
      ReadsRest buf pos result bytes r := by
  obtain ⟨n, hn⟩ : ∃ n, bytes + n = 10 := ⟨10 - bytes, by omega⟩
  -- The induction is on the bytes that are still allowed.
  induction n generalizing bytes pos result with
  | zero =>
    rw [readUvarintFrom]
    refine iff_of_false (fun h => ?_) (not_readsRest_ten (by omega))
    split at h
    · cases h
    · rw [if_pos (by omega)] at h
      cases h
  | succ n ih =>
    rw [readUvarintFrom]
    have hhead : buf[pos]? = (buf.drop pos).head? := by simp [List.head?_drop]
    cases hdrop : buf.drop pos with
    | nil =>
      rw [hdrop] at hhead
      simp only [hhead, List.head?_nil]
      exact iff_of_false (fun h => by cases h) (not_readsRest_end hdrop)
    | cons b tail =>
      rw [hdrop] at hhead
      simp only [hhead, List.head?_cons, and_seven]
      rw [if_neg (by omega)]
      have hd : b.val % 128 < 128 := Nat.mod_lt _ (by omega)
      split
      · rename_i hguard
        obtain rfl : bytes = 9 := by omega
        exact iff_of_false (fun h => by cases h) (not_readsRest_wide hdrop hguard.2)
      · rename_i hguard
        have hfits := group_fits hd (by omega) hguard
        have hshift : (b.val % 128) <<< (7 * bytes) = 2 ^ (7 * bytes) * (b.val % 128) := by
          rw [Nat.shiftLeft_eq, Nat.mul_comm]
        have hread : (result ||| (b.val % 128) <<< (7 * bytes) % 2 ^ 64) =
            result + 2 ^ (7 * bytes) * (b.val % 128) := by
          rw [Nat.mod_eq_of_lt (by rw [hshift]; nlinarith), or_shiftLeft _ _ hlow]
        rw [hread]
        split
        · rename_i hlast
          rw [readsRest_last hdrop ((and_high_eq_zero b).1 hlast) (by omega) (by nlinarith)]
          exact ⟨Except.ok.inj, congrArg _⟩
        · rename_i hmore
          have hb : 128 ≤ b.val := by
            by_contra hlt
            exact hmore ((and_high_eq_zero b).2 (by omega))
          have hnext : result + 2 ^ (7 * bytes) * (b.val % 128) < 2 ^ (7 * (bytes + 1)) := by
            have hpow : 2 ^ (7 * (bytes + 1)) = 128 * 2 ^ (7 * bytes) := by
              rw [Nat.mul_add, Nat.pow_add]
              omega
            rw [hpow]
            nlinarith
          rw [readsRest_more hdrop hb]
          exact ih (by omega) hnext (by omega)

end

theorem readUvarint_eq_ok {buf : List Byte} {pos : Nat} {r : Nat × Nat} :
    readUvarint buf pos = .ok r ↔
      ∃ bs rest, buf.drop pos = bs ++ rest ∧ Leb bs ∧ bs.length ≤ 10 ∧
        lebValue bs < 2 ^ 64 ∧ r = (lebValue bs, pos + bs.length) := by
  have hfrom : readUvarintFrom buf pos pos 0 (7 * 0) 0 = .ok r ↔ ReadsRest buf pos 0 0 r :=
    readUvarintFrom_eq_ok (by omega) (by omega)
  rw [Nat.mul_zero] at hfrom
  rw [readUvarint, hfrom, ReadsRest]
  constructor
  · rintro ⟨bs, rest, heq, hleb, hlen, hval, hlt, hpos⟩
    simp only [Nat.mul_zero, Nat.pow_zero, Nat.zero_add, Nat.one_mul] at hlen hval
    exact ⟨bs, rest, heq, hleb, hlen, hval ▸ hlt, Prod.ext hval hpos⟩
  · rintro ⟨bs, rest, heq, hleb, hlen, hlt, rfl⟩
    exact ⟨bs, rest, heq, hleb, by omega, by simp, hlt, rfl⟩

/-- A number read lies within the buffer, and takes some of it. -/
theorem readUvarint_progress {buf : List Byte} {pos : Nat} {r : Nat × Nat}
    (h : readUvarint buf pos = .ok r) : pos < r.2 ∧ (r.2 ≤ buf.length ∨ buf.length < pos) := by
  obtain ⟨bs, rest, heq, hleb, _, _, rfl⟩ := readUvarint_eq_ok.1 h
  have hpos := hleb.length_pos
  have hlen := congrArg List.length heq
  rw [List.length_drop, List.length_append] at hlen
  exact ⟨by simp; omega, by simp; omega⟩

/-! ## The blob -/

/-- `prev` is the id written last. -/
def packFrom (out : List Byte) (prev : Nat) : List Nat → List Byte
  | [] => out
  | id :: ids => packFrom (out ++ writeUvarint (id - prev)) id ids

def packTagIds (ids : List Nat) : List Byte := packFrom [] 0 (sortDedup ids)

/-- The loop of `unpackTagIds`: `acc` is the id read last. -/
def unpackFrom (buf : List Byte) (pos acc : Nat) (out : List Nat) : Except String (List Nat) :=
  if pos < buf.length then
    match h : readUvarint buf pos with
    | .error e => .error e
    | .ok (delta, next) =>
      if 2 ^ 64 ≤ acc + delta then .error "tag id delta overflow"
      else unpackFrom buf next (acc + delta) (out ++ [acc + delta])
  else .ok out
termination_by buf.length - pos
decreasing_by
  have hprogress := readUvarint_progress h
  simp only at hprogress
  omega

def unpackTagIds (buf : List Byte) : Except String (List Nat) := unpackFrom buf 0 0 []

/-- `Packed prev bytes ids`: the numbers `bytes` spell, added up from `prev` on, are `ids`, and
none of them passes 64 bits. -/
inductive Packed : Nat → List Byte → List Nat → Prop
  | nil {prev : Nat} : Packed prev [] []
  | cons {prev : Nat} {bs rest : List Byte} {ids : List Nat} :
      Leb bs → bs.length ≤ 10 → lebValue bs < 2 ^ 64 → prev + lebValue bs < 2 ^ 64 →
      Packed (prev + lebValue bs) rest ids →
      Packed prev (bs ++ rest) ((prev + lebValue bs) :: ids)

theorem Packed.lt {prev : Nat} {bytes : List Byte} {ids : List Nat} (h : Packed prev bytes ids) :
    ∀ id ∈ ids, id < 2 ^ 64 := by
  induction h with
  | nil => simp
  | cons _ _ _ hlt _ ih =>
    intro id hid
    rcases List.mem_cons.1 hid with rfl | hid
    · exact hlt
    · exact ih id hid

/-- One turn of the loop. -/
theorem packed_drop {buf : List Byte} {pos acc : Nat} (hpos : pos < buf.length) {ids : List Nat} :
    Packed acc (buf.drop pos) ids ↔
      ∃ delta next more, readUvarint buf pos = .ok (delta, next) ∧ acc + delta < 2 ^ 64 ∧
        Packed (acc + delta) (buf.drop next) more ∧ ids = (acc + delta) :: more := by
  constructor
  · intro h
    generalize hdrop : buf.drop pos = bytes at h
    cases h with
    | nil =>
      have hle := List.drop_eq_nil_iff.1 hdrop
      omega
    | @cons _ bs rest more hleb hlen hval hlt hmore =>
      have hrest : buf.drop (pos + bs.length) = rest := by
        rw [← List.drop_drop, hdrop, List.drop_left]
      exact ⟨_, _, more, readUvarint_eq_ok.2 ⟨bs, rest, hdrop, hleb, hlen, hval, rfl⟩, hlt,
        hrest ▸ hmore, rfl⟩
  · rintro ⟨delta, next, more, hread, hlt, hmore, rfl⟩
    obtain ⟨bs, rest, hdrop, hleb, hlen, hval, heq⟩ := readUvarint_eq_ok.1 hread
    cases heq
    rw [← List.drop_drop, hdrop, List.drop_left] at hmore
    rw [hdrop]
    exact .cons hleb hlen hval hlt hmore

theorem unpackFrom_eq_ok {buf : List Byte} {pos acc : Nat} {out ids : List Nat} :
    unpackFrom buf pos acc out = .ok ids ↔
      ∃ more, Packed acc (buf.drop pos) more ∧ ids = out ++ more := by
  induction hn : buf.length - pos using Nat.strongRecOn generalizing pos acc out with
  | ind n ih =>
    rw [unpackFrom]
    split
    · rename_i hpos
      simp only [packed_drop hpos]
      split
      · rename_i e he
        simp [he]
      · rename_i delta next hread
        have hprogress := readUvarint_progress hread
        simp only at hprogress
        split
        · rename_i hover
          constructor
          · intro h
            cases h
          · rintro ⟨_, ⟨_, _, more, hread', hlt, _⟩, _⟩
            rw [hread] at hread'
            cases hread'
            omega
        · rename_i hfits
          rw [ih (buf.length - next) (by omega) rfl]
          constructor
          · rintro ⟨more, hmore, rfl⟩
            exact ⟨_, ⟨delta, next, more, hread, by omega, hmore, rfl⟩, by simp⟩
          · rintro ⟨_, ⟨_, _, more, hread', _, hmore, rfl⟩, rfl⟩
            rw [hread] at hread'
            cases hread'
            exact ⟨more, hmore, by simp⟩
    · rename_i hpos
      have hnil : buf.drop pos = [] := List.drop_eq_nil_iff.2 (by omega)
      rw [hnil]
      constructor
      · intro h
        cases h
        exact ⟨[], .nil, by simp⟩
      · rintro ⟨more, hmore, rfl⟩
        generalize hbytes : ([] : List Byte) = bytes at hmore
        cases hmore with
        | nil => simp
        | cons hleb _ _ _ _ =>
          have hbs := (List.append_eq_nil_iff.1 hbytes.symm).1
          subst hbs
          cases hleb

theorem unpackTagIds_eq_ok {buf : List Byte} {ids : List Nat} :
    unpackTagIds buf = .ok ids ↔ Packed 0 buf ids := by
  rw [unpackTagIds, unpackFrom_eq_ok]
  simp

theorem packFrom_eq (out : List Byte) (prev : Nat) (ids : List Nat) :
    packFrom out prev ids = out ++ packFrom [] prev ids := by
  induction ids generalizing out prev with
  | nil => simp [packFrom]
  | cons id ids ih =>
    rw [packFrom, packFrom, ih, ih ([] ++ _)]
    simp

/-- Ascending ids are packed as what is read back as them. -/
theorem packed_packFrom {prev : Nat} {ids : List Nat} (hsorted : (prev :: ids).Pairwise (· ≤ ·))
    (hlt : ∀ id ∈ ids, id < 2 ^ 64) : Packed prev (packFrom [] prev ids) ids := by
  induction ids generalizing prev with
  | nil => exact .nil
  | cons id ids ih =>
    rw [packFrom, packFrom_eq, List.nil_append]
    have hle : prev ≤ id := List.rel_of_pairwise_cons hsorted (by simp)
    have hid : id < 2 ^ 64 := hlt id (by simp)
    have hval := lebValue_writeUvarint (id - prev)
    have hsum : prev + lebValue (writeUvarint (id - prev)) = id := by omega
    have hrest := ih hsorted.of_cons fun x hx => hlt x (List.mem_cons_of_mem _ hx)
    have hpacked := @Packed.cons prev _ _ _ (leb_writeUvarint (id - prev))
      (@length_writeUvarint _ 9 (by omega)) (by omega) (by omega) (hsum.symm ▸ hrest)
    rwa [hsum] at hpacked

/-- What the ids of a blob are read back as. -/
theorem unpack_pack {ids : List Nat} (h : ∀ id ∈ ids, id < 2 ^ 64) :
    unpackTagIds (packTagIds ids) = .ok (sortDedup ids) := by
  have hle : (0 :: sortDedup ids).Pairwise (· ≤ ·) :=
    List.pairwise_cons.2 ⟨fun _ _ => Nat.zero_le _, (sortDedup_strict ids).imp Nat.le_of_lt⟩
  rw [unpackTagIds_eq_ok]
  exact packed_packFrom hle fun id hid => h id (mem_sortDedup.1 hid)

/-- **The tag-id codec.** Packing and reading back gives the ids sorted without duplicates; lists
are packed alike just when they hold the same ids; and a blob, whatever it holds, is read as the
running sums of the numbers it spells, all of 64 bits, or not at all. -/
theorem tag_ids_codec :
    (∀ ids : List Nat, (∀ id ∈ ids, id < 2 ^ 64) →
      ∃ sorted, unpackTagIds (packTagIds ids) = .ok sorted ∧ sorted.Pairwise (· < ·) ∧
        ∀ id, id ∈ sorted ↔ id ∈ ids) ∧
    (∀ ids ids' : List Nat, (∀ id ∈ ids, id < 2 ^ 64) → (∀ id ∈ ids', id < 2 ^ 64) →
      (packTagIds ids = packTagIds ids' ↔ ∀ id, id ∈ ids ↔ id ∈ ids')) ∧
    ∀ buf, (∃ e, unpackTagIds buf = .error e) ∨
      ∃ ids, unpackTagIds buf = .ok ids ∧ Packed 0 buf ids ∧ ∀ id ∈ ids, id < 2 ^ 64 := by
  refine ⟨fun ids h => ⟨_, unpack_pack h, sortDedup_strict ids, fun id => mem_sortDedup⟩,
    fun ids ids' h h' => ⟨fun heq => ?_, fun hmem => ?_⟩, fun buf => ?_⟩
  · have hsame : sortDedup ids = sortDedup ids' :=
      Except.ok.inj ((unpack_pack h).symm.trans (heq ▸ unpack_pack h'))
    intro id
    rw [← mem_sortDedup, hsame, mem_sortDedup]
  · have hsame : sortDedup ids = sortDedup ids' :=
      strict_ext (sortDedup_strict ids) (sortDedup_strict ids') fun id => by simp [hmem]
    rw [packTagIds, packTagIds, hsame]
  · cases hread : unpackTagIds buf with
    | error e => exact .inl ⟨e, rfl⟩
    | ok ids =>
      have hpacked := unpackTagIds_eq_ok.1 hread
      exact .inr ⟨ids, rfl, hpacked, hpacked.lt⟩

theorem tag_ids_codec_ends :
    ∃ sorted, unpackTagIds (packTagIds [2 ^ 64 - 1, 0, 128, 0]) = .ok sorted ∧
      sorted.Pairwise (· < ·) ∧ ∀ id, id ∈ sorted ↔ id ∈ [2 ^ 64 - 1, 0, 128, 0] :=
  tag_ids_codec.1 _ (by decide)

end Bridge
end Naiad
