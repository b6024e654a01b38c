import Mathlib.Data.List.Nodup
import Naiad.Ui.StageLoader

/-!
# Naiad.Ui.StageBalance

The stage loader in every order of its events. The object URLs are counted: each was revoked once or
is in one place, a slot, a decode or the hands of the code that runs.

* `Spinner`, `Fetches`, `Pictures`, `Urls`: what holds of calls, fetches, the element and object URLs.
* `Good`: all of it; every call of the loader keeps it.
* `stageLoader_balanced`: **the loader is balanced in every run, and revokes every object URL just
  when no decode rejects**.
-/

namespace Naiad
namespace Ui
namespace StageLoader

open Lib

/-! ## What holds in every state -/

/-- A cycle's number is its hash's while it is the current one. -/
def Right (s : State) (c : Cycle) : Prop :=
  c.mySeq ≤ s.seq ∧ (c.mySeq = s.seq → c.hash = s.currentHash)

/-- The spinner turns while a cycle is pending. -/
def Spinner (s : State) : Prop :=
  s.starts = s.ends + s.pending.toNat ∧ (s.destroyed = true → s.pending = false)

/-- A fetch that was not aborted, and any of the current cycle, is the controller's, which there is
none of before the debounce. -/
def Fetches (s : State) : Prop :=
  (∀ i f, s.flights[i]? = some f → f.aborted = false ∨ f.cycle.mySeq = s.seq →
    s.controller = some i) ∧
  (s.debounceTimer ≠ none → s.controller = none)

/-- Every closure is of a cycle that was started. -/
def Known (s : State) : Prop :=
  (∀ c ∈ s.thumbs, Right s c) ∧ (∀ f ∈ s.flights, f.cycle ∈ s.thumbs) ∧
  (∀ c, s.debounceTimer = some c → c ∈ s.thumbs) ∧ ∀ c, s.previewTimer = some c → c ∈ s.thumbs

/-- The element is given pictures of the current cycle, and no preview after the full one. -/
def Pictures (s : State) : Prop :=
  (∀ a ∈ s.assigned, a.url.cycle = a.current ∧ a.url.cycle.mySeq ≤ s.seq ∧
    (a.url.picture = .full → a.url.cycle.mySeq = s.seq → s.fullShown = true)) ∧
  s.assigned.Pairwise fun a b =>
    a.url.picture = .full → b.url.picture = .preview → a.url.cycle.mySeq ≠ b.url.cycle.mySeq

/-- What is stashed is a preview of the current cycle, what is decoded a full picture. -/
def Labelled (s : State) : Prop :=
  (∀ u, s.stashedThumbUrl = some u → u.cycle = ⟨s.seq, s.currentHash⟩ ∧ u.picture = .preview) ∧
  ∀ f ∈ s.flights, ∀ u, f.url? = some u → u.cycle = f.cycle ∧ u.picture = .full

/-- The element has the listeners that the variables hold, those of the picture shown. -/
def Listening (s : State) : Prop :=
  s.listeners = s.imgHandlers.toList ∧
  ∀ h, s.imgHandlers = some h → h.mySeq = s.seq ∧ s.objFullUrl = some h.url ∧
    s.debounceTimer = none ∧ ∀ f ∈ s.flights, f.cycle.mySeq = s.seq → f.stage = .finished

/-- The URLs that were not revoked, where they are. -/
def State.held (s : State) : List Url :=
  s.stashedThumbUrl.toList ++ s.objThumbUrl.toList ++ s.objFullUrl.toList ++
    decodings s.flights ++ s.undecoded

def Numbered (created : List Url) : Prop :=
  created.Nodup ∧ ∀ u ∈ created, u.id < created.length

/-- Every URL created was revoked once or is held once, be it by the code that runs. -/
def Urls (loose : List Url) (s : State) : Prop :=
  (∀ u, s.revoked.count u + s.held.count u + loose.count u = s.created.count u) ∧
    Numbered s.created

/-- After `destroy` no slot and no timer is filled again. -/
def Gone (s : State) : Prop :=
  s.destroyed = true → s.stashedThumbUrl = none ∧ s.objThumbUrl = none ∧ s.objFullUrl = none ∧
    s.debounceTimer = none ∧ s.previewTimer = none ∧ ∀ c ∈ s.thumbs, c.mySeq < s.seq

structure Good (loose : List Url) (s : State) : Prop where
  spinner : Spinner s
  fetches : Fetches s
  known : Known s
  pictures : Pictures s
  labelled : Labelled s
  listening : Listening s
  urls : Urls loose s
  gone : Gone s

theorem Right.eq {s : State} {c : Cycle} (h : Right s c) (hc : c.mySeq = s.seq) :
    c = ⟨s.seq, s.currentHash⟩ := by
  cases c with
  | mk mySeq hash =>
    rw [← hc, ← h.2 hc]

theorem count_held (s : State) (u : Url) : s.held.count u =
    s.stashedThumbUrl.toList.count u + s.objThumbUrl.toList.count u + s.objFullUrl.toList.count u +
      (decodings s.flights).count u + s.undecoded.count u := by
  simp only [State.held, List.count_append]

theorem Numbered.create {s : State} (h : Numbered s.created) (cycle : Cycle) (picture : Picture) :
    Numbered (s.freshUrl cycle picture :: s.created) := by
  constructor
  · refine List.nodup_cons.2 ⟨?_, h.1⟩
    intro hmem
    exact absurd (h.2 _ hmem) (Nat.lt_irrefl _)
  · intro u hu
    rw [List.length_cons]
    rcases List.mem_cons.1 hu with rfl | hold
    · exact Nat.lt_succ_self _
    · exact Nat.lt_succ_of_lt (h.2 u hold)

theorem Spinner.settle {s : State} (h : Spinner s) : Spinner s.settle := by
  rw [State.settle_eq]
  exact ⟨by simpa [Spinner] using h.1, fun _ => rfl⟩

namespace Good

variable {loose : List Url} {s : State}

section Calls

theorem settle (h : Good loose s) : Good loose s.settle := by
  have hspin := h.spinner.settle
  rw [State.settle_eq] at hspin ⊢
  exact ⟨hspin, h.fetches, h.known, h.pictures, h.labelled, h.listening, h.urls, h.gone⟩

theorem caught (h : Good loose s) (cycle : Cycle) (isAbort : Bool) :
    Good loose (s.caught cycle isAbort) := by
  unfold State.caught
  split
  · exact h
  · split
    · exact h
    · exact h.settle

theorem erased_listeners (h : Good loose s) :
    s.imgHandlers.elim s.listeners s.listeners.erase = [] := by
  rw [h.listening.1]
  cases s.imgHandlers with
  | none => rfl
  | some hd => simp

theorem removeImgListeners (h : Good loose s) : Good loose s.removeImgListeners := by
  rw [State.removeImgListeners_eq]
  exact ⟨h.spinner, h.fetches, h.known, h.pictures, h.labelled, ⟨h.erased_listeners, nofun⟩, h.urls,
    h.gone⟩

theorem noPreviewTimer (h : Good loose s) : Good loose { s with previewTimer := none } where
  spinner := h.spinner
  fetches := h.fetches
  known := ⟨h.known.1, h.known.2.1, h.known.2.2.1, nofun⟩
  pictures := h.pictures
  labelled := h.labelled
  listening := h.listening
  urls := h.urls
  gone := fun hd =>
    have ⟨hstash, hthumb, hfull, hdebounce, _, hold⟩ := h.gone hd
    ⟨hstash, hthumb, hfull, hdebounce, rfl, hold⟩

theorem noDebounceTimer (h : Good loose s) : Good loose { s with debounceTimer := none } where
  spinner := h.spinner
  fetches := ⟨h.fetches.1, fun hne => absurd rfl hne⟩
  known := ⟨h.known.1, h.known.2.1, nofun, h.known.2.2.2⟩
  pictures := h.pictures
  labelled := h.labelled
  listening := ⟨h.listening.1, fun hd hhd =>
    have ⟨hseq, hfull, _, hover⟩ := h.listening.2 hd hhd
    ⟨hseq, hfull, rfl, hover⟩⟩
  urls := h.urls
  gone := fun hd =>
    have ⟨hstash, hthumb, hfull, _, hpreview, hold⟩ := h.gone hd
    ⟨hstash, hthumb, hfull, rfl, hpreview, hold⟩

end Calls

/-! ### Object URLs -/

section Slots

theorem create (h : Good loose s) (cycle : Cycle) (picture : Picture) :
    Good (s.freshUrl cycle picture :: loose) (s.create (s.freshUrl cycle picture)) := by
  refine ⟨h.spinner, h.fetches, h.known, h.pictures, h.labelled, h.listening,
    ⟨?_, h.urls.2.create cycle picture⟩, h.gone⟩
  intro u
  have hu := h.urls.1 u
  change s.revoked.count u + s.held.count u + _ = (_ :: s.created).count u
  rw [List.count_cons, List.count_cons]
  omega

theorem revokeObjectURL {url : Url} (h : Good (url :: loose) s) :
    Good loose (s.revokeObjectURL url) := by
  refine ⟨h.spinner, h.fetches, h.known, h.pictures, h.labelled, h.listening,
    ⟨?_, h.urls.2⟩, h.gone⟩
  intro u
  have hu := h.urls.1 u
  change (url :: s.revoked).count u + s.held.count u + _ = s.created.count u
  rw [List.count_cons] at hu ⊢
  omega

/-- A decode that rejects leaves its URL. -/
theorem abandon {url : Url} (h : Good (url :: loose) s) :
    Good loose { s with undecoded := url :: s.undecoded } := by
  refine ⟨h.spinner, h.fetches, h.known, h.pictures, h.labelled, h.listening,
    ⟨?_, h.urls.2⟩, h.gone⟩
  intro u
  have hu := h.urls.1 u
  rw [count_held] at hu ⊢
  rw [List.count_cons] at hu
  dsimp only
  rw [List.count_cons]
  omega

theorem revokeThumb (h : Good loose s) : Good loose s.revokeThumb := by
  rw [State.revokeThumb_eq]
  refine ⟨h.spinner, h.fetches, h.known, h.pictures, h.labelled, h.listening,
    ⟨?_, h.urls.2⟩, ?_⟩
  · intro u
    have hu := h.urls.1 u
    rw [count_held] at hu ⊢
    simp only [List.count_append, Option.toList_none, List.count_nil]
    omega
  · intro hd
    obtain ⟨hstash, _, hrest⟩ := h.gone hd
    exact ⟨hstash, rfl, hrest⟩

theorem revokeStash (h : Good loose s) : Good loose s.revokeStash := by
  rw [State.revokeStash_eq]
  refine ⟨h.spinner, h.fetches, h.known, h.pictures, ⟨nofun, h.labelled.2⟩, h.listening,
    ⟨?_, h.urls.2⟩, ?_⟩
  · intro u
    have hu := h.urls.1 u
    rw [count_held] at hu ⊢
    simp only [List.count_append, Option.toList_none, List.count_nil]
    omega
  · intro hd
    exact ⟨rfl, (h.gone hd).2⟩

theorem revokeFull (h : Good loose s) (hnone : s.imgHandlers = none) :
    Good loose s.revokeFull := by
  rw [State.revokeFull_eq]
  refine ⟨h.spinner, h.fetches, h.known, h.pictures, h.labelled, ⟨h.listening.1, ?_⟩,
    ⟨?_, h.urls.2⟩, ?_⟩
  · intro hd hhd
    cases hnone.symm.trans hhd
  · intro u
    have hu := h.urls.1 u
    rw [count_held] at hu ⊢
    simp only [List.count_append, Option.toList_none, List.count_nil]
    omega
  · intro hd
    obtain ⟨hstash, hthumb, _, hrest⟩ := h.gone hd
    exact ⟨hstash, hthumb, rfl, hrest⟩

end Slots

/-! ### The element -/

section Element

/-- A picture of the current cycle is assigned, and a preview only before the full one. -/
theorem assign (h : Good loose s) {url : Url} (hcycle : url.cycle = ⟨s.seq, s.currentHash⟩)
    (hfull : url.picture = .full ↔ s.fullShown = true) : Good loose (s.assign url) := by
  refine ⟨h.spinner, h.fetches, h.known, ⟨?_, ?_⟩, h.labelled, h.listening, h.urls, h.gone⟩
  · intro a ha
    rcases List.mem_append.1 ha with hold | hnew
    · exact h.pictures.1 a hold
    · rw [List.mem_singleton] at hnew
      subst hnew
      refine ⟨hcycle, ?_, fun hpic _ => hfull.1 hpic⟩
      change url.cycle.mySeq ≤ s.seq
      rw [hcycle]
  · refine List.pairwise_append.2 ⟨h.pictures.2, List.pairwise_singleton _ _, ?_⟩
    intro a ha b hb hafull hbprev hsame
    rw [List.mem_singleton] at hb
    subst hb
    change a.url.cycle.mySeq = url.cycle.mySeq at hsame
    rw [hcycle] at hsame
    have hshown := hfull.2 ((h.pictures.1 a ha).2.2 hafull hsame)
    cases hbprev.symm.trans hshown

theorem hold_thumb {url : Url} (h : Good (url :: loose) s) (hnone : s.objThumbUrl = none)
    (halive : s.destroyed = false) : Good loose { s with objThumbUrl := some url } := by
  refine ⟨h.spinner, h.fetches, h.known, h.pictures, h.labelled, h.listening,
    ⟨?_, h.urls.2⟩, ?_⟩
  · intro u
    have hu := h.urls.1 u
    rw [count_held, hnone] at hu
    rw [count_held]
    simp only [Option.toList_some, Option.toList_none, List.count_nil, List.count_cons] at hu ⊢
    omega
  · intro hd
    cases halive.symm.trans hd

theorem paintThumb {url : Url} (h : Good (url :: loose) s)
    (hcycle : url.cycle = ⟨s.seq, s.currentHash⟩) (hpic : url.picture = .preview)
    (hshown : s.fullShown = false) (halive : s.destroyed = false) :
    Good loose (s.paintThumb url) := by
  have hrevoked := h.revokeThumb
  unfold State.paintThumb
  rw [State.revokeThumb_eq] at hrevoked ⊢
  refine (hrevoked.hold_thumb rfl halive).assign hcycle ?_
  change url.picture = .full ↔ s.fullShown = true
  simp [hpic, hshown]

theorem hold_stash {url : Url} (h : Good (url :: loose) s) (hnone : s.stashedThumbUrl = none)
    (hcycle : url.cycle = ⟨s.seq, s.currentHash⟩) (hpic : url.picture = .preview)
    (halive : s.destroyed = false) : Good loose { s with stashedThumbUrl := some url } := by
  refine ⟨h.spinner, h.fetches, h.known, h.pictures, ⟨?_, h.labelled.2⟩, h.listening,
    ⟨?_, h.urls.2⟩, ?_⟩
  · intro u hu
    cases hu
    exact ⟨hcycle, hpic⟩
  · intro u
    have hu := h.urls.1 u
    rw [count_held, hnone] at hu
    rw [count_held]
    simp only [Option.toList_some, Option.toList_none, List.count_nil, List.count_cons] at hu ⊢
    omega
  · intro hd
    cases halive.symm.trans hd

/-- The preview timer takes the stash. -/
theorem take_stash (h : Good loose s) {url : Url} (hurl : s.stashedThumbUrl = some url) :
    Good (url :: loose) { s with stashedThumbUrl := none } := by
  refine ⟨h.spinner, h.fetches, h.known, h.pictures, ⟨nofun, h.labelled.2⟩, h.listening,
    ⟨?_, h.urls.2⟩, ?_⟩
  · intro u
    have hu := h.urls.1 u
    rw [count_held, hurl] at hu
    rw [count_held]
    simp only [Option.toList_some, Option.toList_none, List.count_nil, List.count_cons] at hu ⊢
    omega
  · intro hd
    exact ⟨rfl, (h.gone hd).2⟩

theorem alive {c : Cycle} (h : Good loose s) (hc : c ∈ s.thumbs) (hseq : c.mySeq = s.seq) :
    s.destroyed = false := by
  cases hd : s.destroyed with
  | false => rfl
  | true =>
    have hlt := (h.gone hd).2.2.2.2.2 c hc
    omega

theorem onBlob (h : Good [] s) {c : Cycle} (hc : c ∈ s.thumbs) : Good [] (s.onBlob c) := by
  have hcreated := h.create c .preview
  unfold State.onBlob
  dsimp only
  split
  · exact hcreated.revokeObjectURL
  · rename_i hcur
    have hseq : c.mySeq = s.seq := not_not.1 hcur
    have hcycle : c = ⟨s.seq, s.currentHash⟩ := (h.known.1 c hc).eq hseq
    have halive := h.alive hc hseq
    split
    · exact hcreated.revokeObjectURL
    · rename_i hshown
      have hshown' : s.fullShown = false := by
        cases hs : s.fullShown with
        | false => rfl
        | true => exact absurd hs hshown
      split
      · exact hcreated.paintThumb hcycle rfl hshown' halive
      · have hrevoked := hcreated.revokeStash
        rw [State.revokeStash_eq] at hrevoked ⊢
        exact hrevoked.hold_stash rfl hcycle rfl halive

theorem previewFires (h : Good [] s) {c : Cycle} (hc : s.previewTimer = some c) :
    Good [] (s.previewFires c) := by
  have hoff := h.noPreviewTimer
  unfold State.previewFires
  dsimp only
  split
  · exact hoff
  · rename_i hcur
    obtain ⟨hseq, hshown⟩ := not_or.1 hcur
    have halive := h.alive (h.known.2.2.2 c hc) (not_not.1 hseq)
    have hready : Good [] { s with previewTimer := none, previewReady := true } :=
      ⟨hoff.spinner, hoff.fetches, hoff.known, hoff.pictures, hoff.labelled, hoff.listening,
        hoff.urls, hoff.gone⟩
    split
    · rename_i url hstash
      obtain ⟨hcycle, hpic⟩ := h.labelled.1 url hstash
      refine (hready.take_stash hstash).paintThumb hcycle hpic ?_ halive
      cases hs : s.fullShown with
      | false => rfl
      | true => exact absurd hs hshown
    · exact hready

end Element

/-! ### Flights -/

section Flights

variable {i : Nat} {f : Flight}

/-- A flight goes on to another stage, with the URL that it has there. -/
theorem setStage {loose' : List Url} {stage : Stage} (h : Good loose s)
    (hf : s.flights[i]? = some f) (hnot : f.stage ≠ .finished)
    (hlabel : ∀ u, (Flight.mk f.cycle stage f.aborted).url? = some u →
      u.cycle = f.cycle ∧ u.picture = .full)
    (hcount : ∀ u, (Flight.mk f.cycle stage f.aborted).url?.toList.count u + loose'.count u =
      f.url?.toList.count u + loose.count u) : Good loose' (s.setStage i stage) := by
  have hmem : ∀ f' ∈ s.flights.modify i fun f => { f with stage := stage },
      f' ∈ s.flights ∨ f' = { f with stage := stage } := by
    intro f' hf'
    rcases of_mem_modify hf' with hold | ⟨g, hg, rfl⟩
    · exact .inl hold
    · cases hf.symm.trans hg
      exact .inr rfl
  have hin : f ∈ s.flights := List.mem_of_getElem? hf
  refine ⟨h.spinner, ⟨?_, h.fetches.2⟩, ⟨h.known.1, ?_, h.known.2.2⟩, h.pictures,
    ⟨h.labelled.1, ?_⟩, ⟨h.listening.1, ?_⟩, ⟨?_, h.urls.2⟩, h.gone⟩
  · intro j f' hj hlive
    obtain ⟨g, hg, ⟨rfl, _⟩ | ⟨rfl, rfl⟩⟩ := of_getElem?_modify hj
    · exact h.fetches.1 j f' hg hlive
    · exact h.fetches.1 i g hg hlive
  · intro f' hf'
    rcases hmem f' hf' with hold | rfl
    · exact h.known.2.1 f' hold
    · exact h.known.2.1 f hin
  · intro f' hf' u hu
    rcases hmem f' hf' with hold | rfl
    · exact h.labelled.2 f' hold u hu
    · exact hlabel u hu
  · intro hd hhd
    obtain ⟨hseq, hfull, htimer, hover⟩ := h.listening.2 hd hhd
    refine ⟨hseq, hfull, htimer, ?_⟩
    intro f' hf' hcur
    rcases hmem f' hf' with hold | rfl
    · exact hover f' hold hcur
    · exact absurd (hover f hin hcur) hnot
  · intro u
    have hu := h.urls.1 u
    have hc := hcount u
    have hmod := count_decodings_modify (g := fun f => { f with stage := stage }) hf u
    rw [count_held] at hu ⊢
    change s.revoked.count u + (s.stashedThumbUrl.toList.count u + s.objThumbUrl.toList.count u +
      s.objFullUrl.toList.count u + (decodings (s.flights.modify i fun f =>
        { f with stage := stage })).count u + s.undecoded.count u) + _ = s.created.count u
    omega

theorem fetched (h : Good loose s) (hf : s.flights[i]? = some f) (hstage : f.stage = .fetching)
    (ok : Bool) : Good loose (s.fetched i f ok) := by
  have hnot : f.stage ≠ .finished := by simp [hstage]
  have hurl : f.url? = none := by simp [Flight.url?, hstage]
  have hover : Good loose (s.setStage i .finished) :=
    h.setStage hf hnot nofun fun u => by rw [hurl]; rfl
  unfold State.fetched
  split
  · exact hover
  · split
    · exact h.setStage hf hnot nofun fun u => by rw [hurl]; rfl
    · exact hover.caught f.cycle false

theorem bodyRead (h : Good [] s) (hf : s.flights[i]? = some f) (hstage : f.stage = .reading) :
    Good [] (s.bodyRead i f) := by
  have hnot : f.stage ≠ .finished := by simp [hstage]
  have hurl : f.url? = none := by simp [Flight.url?, hstage]
  unfold State.bodyRead
  split
  · exact h.setStage hf hnot nofun fun u => by rw [hurl]; rfl
  · refine (h.create f.cycle .full).setStage hf hnot ?_ ?_
    · intro u hu
      cases hu
      exact ⟨rfl, rfl⟩
    · intro u
      rw [hurl]
      simp [Flight.url?]

/-- A decode is over; its URL is in the hands of `runFull`. -/
theorem take_decoded (h : Good [] s) (hf : s.flights[i]? = some f) {url : Url}
    (hstage : f.stage = .decoding url) : Good [url] (s.setStage i .finished) := by
  have hurl : f.url? = some url := by simp [Flight.url?, hstage]
  refine h.setStage hf (by simp [hstage]) nofun ?_
  intro u
  rw [hurl]
  simp [Flight.url?]

theorem rejected (h : Good [] s) (hf : s.flights[i]? = some f) (isAbort : Bool) :
    Good [] (s.rejected i f isAbort) := by
  unfold State.rejected
  split
  · exact h
  · rename_i url hstage
    exact (h.take_decoded hf hstage).abandon.caught f.cycle isAbort
  · rename_i hnot hdecoding
    have hurl : f.url? = none := by
      unfold Flight.url?
      split
      · rename_i url hstage
        exact absurd hstage (hdecoding url)
      · rfl
    have hover : Good [] (s.setStage i .finished) :=
      h.setStage hf hnot nofun fun u => by rw [hurl]; rfl
    exact hover.caught f.cycle isAbort

theorem listen {url : Url} {seq : Nat} (h : Good [url] s) (hseq : seq = s.seq)
    (halive : s.destroyed = false) (hfull : s.objFullUrl = none) (hnone : s.imgHandlers = none)
    (htimer : s.debounceTimer = none)
    (hover : ∀ f ∈ s.flights, f.cycle.mySeq = s.seq → f.stage = .finished) :
    Good [] { s with
      objFullUrl := some url
      imgHandlers := some ⟨seq, url⟩
      listeners := s.listeners ++ [Handler.mk seq url] } := by
  refine ⟨h.spinner, h.fetches, h.known, h.pictures, h.labelled, ⟨?_, ?_⟩, ⟨?_, h.urls.2⟩, ?_⟩
  · change s.listeners ++ _ = _
    rw [h.listening.1, hnone]
    rfl
  · intro hd hhd
    cases hhd
    exact ⟨hseq, rfl, htimer, hover⟩
  · intro u
    have hu := h.urls.1 u
    rw [count_held, hfull] at hu
    rw [count_held]
    simp only [Option.toList_some, Option.toList_none, List.count_nil, List.count_cons] at hu ⊢
    omega
  · intro hd
    cases halive.symm.trans hd

theorem shown (h : Good loose s) : Good loose { s with fullShown := true } where
  spinner := h.spinner
  fetches := h.fetches
  known := h.known
  pictures := ⟨fun a ha => ⟨(h.pictures.1 a ha).1, (h.pictures.1 a ha).2.1, fun _ _ => rfl⟩,
    h.pictures.2⟩
  labelled := h.labelled
  listening := h.listening
  urls := h.urls
  gone := h.gone

theorem showFull {url : Url} {c : Cycle} (h : Good [url] s) (hc : c ∈ s.thumbs)
    (hseq : c.mySeq = s.seq) (hurl : url.cycle = c) (hpic : url.picture = .full)
    (hnone : s.imgHandlers = none) (htimer : s.debounceTimer = none)
    (hover : ∀ f ∈ s.flights, f.cycle.mySeq = s.seq → f.stage = .finished) :
    Good [] (s.showFull c url) := by
  have hcycle : c = ⟨s.seq, s.currentHash⟩ := (h.known.1 c hc).eq hseq
  have hrevoked := h.revokeFull hnone
  rw [State.revokeFull_eq] at hrevoked
  have hstash := (hrevoked.listen hseq (h.alive hc hseq) rfl hnone htimer hover).noPreviewTimer
    |>.revokeStash
  unfold State.showFull
  rw [State.revokeFull_eq]
  rw [State.revokeStash_eq] at hstash
  dsimp only [State.cancelPreview]
  rw [State.revokeStash_eq]
  refine hstash.shown.assign ?_ ?_
  · rw [hurl, hcycle]
  · exact ⟨fun _ => rfl, fun _ => hpic⟩

theorem decoded (h : Good [] s) (hf : s.flights[i]? = some f) {url : Url}
    (hstage : f.stage = .decoding url) : Good [] (s.decoded i f url) := by
  have htaken := h.take_decoded hf hstage
  have hin : f ∈ s.flights := List.mem_of_getElem? hf
  unfold State.decoded
  dsimp only
  split
  · exact htaken.revokeObjectURL
  · rename_i hcur
    have hseq : f.cycle.mySeq = s.seq := not_not.1 hcur
    have hlabel := h.labelled.2 f hin url (by simp [Flight.url?, hstage])
    have hcontroller := h.fetches.1 i f hf (.inr hseq)
    refine htaken.showFull (h.known.2.1 f hin) hseq hlabel.1 hlabel.2 ?_ ?_ ?_
    · cases hnone : s.imgHandlers with
      | none => exact hnone
      | some hd =>
        have hover := (h.listening.2 hd hnone).2.2.2 f hin hseq
        cases hstage.symm.trans hover
    · cases htimer : s.debounceTimer with
      | none => exact htimer
      | some c =>
        have hnone := h.fetches.2 (by simp [htimer])
        cases hcontroller.symm.trans hnone
    · -- the controller has one flight of the current cycle
      intro f' hf' hcur'
      obtain ⟨j, hj⟩ := List.mem_iff_getElem?.1 hf'
      obtain ⟨g, hg, ⟨rfl, hne⟩ | ⟨rfl, _⟩⟩ := of_getElem?_modify hj
      · have hother := h.fetches.1 j f' hg (.inr hcur')
        exact absurd (Option.some.inj (hcontroller.symm.trans hother)) hne
      · rfl

theorem debounceFires (h : Good [] s) {c : Cycle} (hc : s.debounceTimer = some c) :
    Good [] (s.debounceFires c) := by
  have hoff := h.noDebounceTimer
  have hctrl : s.controller = none := h.fetches.2 (by simp [hc])
  unfold State.debounceFires
  dsimp only
  split
  · exact hoff
  · have hidle : ∀ (j : Nat) (f : Flight), s.flights[j]? = some f →
        ¬(f.aborted = false ∨ f.cycle.mySeq = s.seq) := by
      intro j f hf hlive
      cases hctrl.symm.trans (h.fetches.1 j f hf hlive)
    have hnone : s.imgHandlers = none := by
      cases hh : s.imgHandlers with
      | none => rfl
      | some hd => cases hc.symm.trans (h.listening.2 hd hh).2.2.1
    refine ⟨h.spinner, ⟨?_, fun hne => absurd rfl hne⟩, ⟨h.known.1, ?_, nofun, h.known.2.2.2⟩,
      h.pictures, ⟨h.labelled.1, ?_⟩, ⟨h.listening.1, ?_⟩, ⟨?_, h.urls.2⟩, hoff.gone⟩
    · intro j f hf hlive
      change (s.flights ++ [_])[j]? = some f at hf
      rcases Nat.lt_trichotomy j s.flights.length with hlt | rfl | hgt
      · rw [List.getElem?_append_left hlt] at hf
        exact absurd hlive (hidle j f hf)
      · rfl
      · rw [List.getElem?_eq_none (by simp; omega)] at hf
        cases hf
    · intro f hf
      rcases List.mem_append.1 hf with hold | hnew
      · exact h.known.2.1 f hold
      · rw [List.mem_singleton] at hnew
        subst hnew
        exact h.known.2.2.1 c hc
    · intro f hf u hu
      rcases List.mem_append.1 hf with hold | hnew
      · exact h.labelled.2 f hold u hu
      · rw [List.mem_singleton] at hnew
        subst hnew
        cases hu
    · intro hd hhd
      cases hnone.symm.trans hhd
    · intro u
      have hu := h.urls.1 u
      have hnew : decodings (s.flights ++ [Flight.mk c .fetching false]) = decodings s.flights := by
        simp [decodings, Flight.url?]
      rw [count_held] at hu ⊢
      change s.revoked.count u + (s.stashedThumbUrl.toList.count u + s.objThumbUrl.toList.count u +
        s.objFullUrl.toList.count u +
        (decodings (s.flights ++ [Flight.mk c .fetching false])).count u +
        s.undecoded.count u) + _ = s.created.count u
      rw [hnew]
      exact hu

end Flights

theorem take_full (h : Good loose s) (hnone : s.imgHandlers = none) {url : Url}
    (hurl : s.objFullUrl = some url) : Good (url :: loose) { s with objFullUrl := none } := by
  refine ⟨h.spinner, h.fetches, h.known, h.pictures, h.labelled, ⟨h.listening.1, ?_⟩,
    ⟨?_, h.urls.2⟩, ?_⟩
  · intro hd hhd
    cases hnone.symm.trans hhd
  · intro u
    have hu := h.urls.1 u
    rw [count_held, hurl] at hu
    rw [count_held]
    simp only [Option.toList_some, Option.toList_none, List.count_nil, List.count_cons] at hu ⊢
    omega
  · intro hd
    obtain ⟨hstash, hthumb, _, hrest⟩ := h.gone hd
    exact ⟨hstash, hthumb, rfl, hrest⟩

theorem onImg (h : Good [] s) {hd : Handler} (hhd : s.imgHandlers = some hd) :
    Good [] (s.onImg hd) := by
  obtain ⟨hseq, hfull, _⟩ := h.listening.2 hd hhd
  have hsettled := h.removeImgListeners.settle.revokeThumb
  rw [State.revokeThumb_eq, State.settle_eq, State.removeImgListeners_eq] at hsettled
  unfold State.onImg
  rw [State.removeImgListeners_eq]
  dsimp only
  rw [if_pos hseq, State.settle_eq, State.revokeThumb_eq]
  split
  · exact (hsettled.take_full rfl hfull).revokeObjectURL
  · rename_i hne
    exact absurd hfull hne

theorem dispatch (h : Good [] s) : Good [] s.dispatch := by
  unfold State.dispatch
  rw [h.listening.1]
  cases hhd : s.imgHandlers with
  | none => exact h
  | some hd =>
    have hmem : hd ∈ s.listeners := by simp [h.listening.1, hhd]
    change Good [] (if hd ∈ s.listeners then s.onImg hd else s)
    rw [if_pos hmem]
    exact h.onImg hhd

/-! ### Cycles -/

section Cycles

theorem of_mem_abortedFlights (h : Good [] s) {f : Flight} (hf : f ∈ s.abortedFlights) :
    f.aborted = true ∧ ∃ f₀ ∈ s.flights, f₀.cycle = f.cycle ∧ f₀.url? = f.url? := by
  obtain ⟨j, hj⟩ := List.mem_iff_getElem?.1 hf
  unfold State.abortedFlights at hj
  cases hc : s.controller with
  | none =>
    rw [hc] at hj
    refine ⟨?_, f, List.mem_of_getElem? hj, rfl, rfl⟩
    cases ha : f.aborted with
    | true => rfl
    | false => cases hc.symm.trans (h.fetches.1 j f hj (.inl ha))
  | some i =>
    rw [hc] at hj
    obtain ⟨g, hg, ⟨rfl, hne⟩ | ⟨rfl, _⟩⟩ := of_getElem?_modify hj
    · refine ⟨?_, f, List.mem_of_getElem? hg, rfl, rfl⟩
      cases ha : f.aborted with
      | true => rfl
      | false => exact absurd (Option.some.inj (hc.symm.trans (h.fetches.1 j f hg (.inl ha)))) hne
    · exact ⟨rfl, g, List.mem_of_getElem? hg, rfl, rfl⟩

theorem count_abortedFlights (s : State) (u : Url) :
    (decodings s.abortedFlights).count u = (decodings s.flights).count u := by
  unfold State.abortedFlights
  cases s.controller with
  | none => rfl
  | some i =>
    change (decodings (s.flights.modify i _)).count u = _
    cases hf : s.flights[i]? with
    | none => rw [List.modify_eq_self (List.getElem?_eq_none_iff.1 hf)]
    | some f =>
      have hmod := count_decodings_modify (g := fun f => { f with aborted := true }) hf u
      have hsame : (Flight.mk f.cycle f.stage true).url? = f.url? := rfl
      rw [hsame] at hmod
      omega

/-- `clear`, and the cycle's number moves on. -/
theorem retire (h : Good [] s) (hash : String) (destroyed : Bool) :
    Good [] { s.clear with
      seq := s.seq + 1, currentHash := hash, destroyed := destroyed } := by
  rw [State.clear_eq]
  have hold : ∀ c ∈ s.thumbs, c.mySeq < s.seq + 1 := fun c hc =>
    Nat.lt_succ_of_le (h.known.1 c hc).1
  have hflight : ∀ f ∈ s.abortedFlights, f.cycle ∈ s.thumbs := by
    intro f hf
    obtain ⟨_, f₀, hf₀, hcycle, _⟩ := h.of_mem_abortedFlights hf
    rw [← hcycle]
    exact h.known.2.1 f₀ hf₀
  refine ⟨⟨h.spinner.1, fun _ => rfl⟩, ⟨?_, fun hne => absurd rfl hne⟩, ⟨?_, hflight, nofun, nofun⟩,
    ⟨?_, h.pictures.2⟩, ⟨nofun, ?_⟩, ⟨h.erased_listeners, nofun⟩, ⟨?_, h.urls.2⟩,
    fun _ => ⟨rfl, rfl, rfl, rfl, rfl, hold⟩⟩
  · intro j f hf hlive
    have hin := List.mem_of_getElem? hf
    rcases hlive with hlive | hcur
    · cases (h.of_mem_abortedFlights hin).1.symm.trans hlive
    · exact absurd hcur (hold f.cycle (hflight f hin)).ne
  · intro c hc
    exact ⟨(hold c hc).le, fun hcur => absurd hcur (hold c hc).ne⟩
  · intro a ha
    obtain ⟨hcycle, hle, _⟩ := h.pictures.1 a ha
    have hlt := Nat.lt_succ_of_le hle
    exact ⟨hcycle, hlt.le, fun _ hcur => absurd hcur hlt.ne⟩
  · intro f hf u hu
    obtain ⟨_, f₀, hf₀, hcycle, hurl⟩ := h.of_mem_abortedFlights hf
    rw [← hcycle]
    exact h.labelled.2 f₀ hf₀ u (hurl.trans hu)
  · intro u
    have hu := h.urls.1 u
    have hflights := count_abortedFlights s u
    rw [count_held] at hu ⊢
    simp only [List.count_append, Option.toList_none, List.count_nil] at hu ⊢
    omega

/-- A cycle begins where none is open. -/
theorem begin_cycle (h : Good [] s) (halive : s.destroyed = false) (hpending : s.pending = false)
    (hctrl : s.controller = none) (hnone : s.imgHandlers = none)
    (hassigned : ∀ a ∈ s.assigned, a.url.cycle.mySeq < s.seq) :
    Good [] { s with
      pending := true
      fullShown := false
      previewReady := false
      starts := s.starts + 1
      thumbs := s.thumbs ++ [Cycle.mk s.seq s.currentHash]
      previewTimer := some ⟨s.seq, s.currentHash⟩
      debounceTimer := some ⟨s.seq, s.currentHash⟩ } := by
  refine ⟨⟨?_, ?_⟩, ⟨h.fetches.1, fun _ => hctrl⟩, ⟨?_, ?_, ?_, ?_⟩, ⟨?_, h.pictures.2⟩, h.labelled,
    ⟨h.listening.1, ?_⟩, h.urls, ?_⟩
  · have hspin := h.spinner.1
    rw [hpending] at hspin
    change s.starts + 1 = s.ends + 1
    rw [hspin]
    rfl
  · intro hd
    cases halive.symm.trans hd
  · intro c hc
    rcases List.mem_append.1 hc with hold | hnew
    · exact h.known.1 c hold
    · rw [List.mem_singleton] at hnew
      subst hnew
      exact ⟨le_refl _, fun _ => rfl⟩
  · intro f hf
    exact List.mem_append_left _ (h.known.2.1 f hf)
  · intro c hc
    cases hc
    simp
  · intro c hc
    cases hc
    simp
  · intro a ha
    exact ⟨(h.pictures.1 a ha).1, (h.pictures.1 a ha).2.1,
      fun _ hcur => absurd hcur (hassigned a ha).ne⟩
  · intro hd hhd
    cases hnone.symm.trans hhd
  · intro hd
    cases halive.symm.trans hd

theorem update (h : Good [] s) (halive : s.destroyed = false) (hash : String) :
    Good [] (s.update hash) := by
  unfold State.update
  split
  · exact h
  · have hretired := h.retire hash s.destroyed
    unfold State.start
    rw [State.clear_eq] at hretired ⊢
    refine hretired.begin_cycle halive rfl rfl rfl ?_
    intro a ha
    exact Nat.lt_succ_of_le (h.pictures.1 a ha).2.1

theorem destroy (h : Good [] s) : Good [] s.destroy := by
  have hretired := h.retire s.currentHash true
  unfold State.destroy
  rw [State.clear_eq] at hretired ⊢
  exact hretired

end Cycles

end Good

/-! ## Runs -/

theorem Good.step {s : State} (h : Good [] s) {ev : Event} (hev : Mounted s ev) :
    Good [] (step s ev) := by
  cases ev with
  | update hash => exact h.update hev hash
  | destroy => exact h.destroy
  | debounce =>
    change Good [] (s.debounceTimer.elim s s.debounceFires)
    cases hc : s.debounceTimer with
    | none => exact h
    | some c => exact h.debounceFires hc
  | preview =>
    change Good [] (s.previewTimer.elim s s.previewFires)
    cases hc : s.previewTimer with
    | none => exact h
    | some c => exact h.previewFires hc
  | thumb request =>
    change Good [] (s.thumbs[request]?.elim s s.onBlob)
    cases hc : s.thumbs[request]? with
    | none => exact h
    | some c => exact h.onBlob (List.mem_of_getElem? hc)
  | response i ok =>
    unfold StageLoader.step
    dsimp only
    split
    · rename_i f hf
      split
      · rename_i hstage
        exact h.fetched hf hstage ok
      · exact h
    · exact h
  | body i =>
    unfold StageLoader.step
    dsimp only
    split
    · rename_i f hf
      split
      · rename_i hstage
        exact h.bodyRead hf hstage
      · exact h
    · exact h
  | decode i =>
    unfold StageLoader.step
    dsimp only
    split
    · rename_i f hf
      split
      · rename_i url hstage
        exact h.decoded hf hstage
      · exact h
    · exact h
  | reject i isAbort =>
    unfold StageLoader.step
    dsimp only
    split
    · rename_i f hf
      exact h.rejected hf isAbort
    · exact h
  | img => exact h.dispatch

namespace Good

variable {s : State}

theorem count_revoked_le (h : Good [] s) (u : Url) :
    s.revoked.count u ≤ s.created.count u := by
  have hu := h.urls.1 u
  omega

theorem revoked_once (h : Good [] s) {u : Url} (hu : u ∈ s.revoked) :
    u ∈ s.created ∧ s.revoked.count u = 1 := by
  have hle := h.count_revoked_le u
  have hpos : 0 < s.revoked.count u := List.count_pos_iff.2 hu
  have hone : s.created.count u ≤ 1 := List.nodup_iff_count_le_one.1 h.urls.2.1 u
  exact ⟨List.count_pos_iff.1 (by omega), by omega⟩

/-- When all is over, the URLs that were not revoked are those whose decode rejected. -/
theorem all_revoked_iff (h : Good [] s) (hgone : s.destroyed = true)
    (hover : ∀ f ∈ s.flights, f.stage = .finished) :
    (∀ u ∈ s.created, s.revoked.count u = 1) ↔ s.undecoded = [] := by
  obtain ⟨hstash, hthumb, hfull, _⟩ := h.gone hgone
  have hdecodings : decodings s.flights = [] := by
    refine List.flatMap_eq_nil_iff.2 ?_
    intro f hf
    simp [Flight.url?, hover f hf]
  have hcount : ∀ u, s.revoked.count u + s.undecoded.count u = s.created.count u := by
    intro u
    have hu := h.urls.1 u
    rw [count_held, hstash, hthumb, hfull, hdecodings] at hu
    simp only [Option.toList_none, List.count_nil] at hu
    omega
  have hone : ∀ u, s.created.count u ≤ 1 := List.nodup_iff_count_le_one.1 h.urls.2.1
  constructor
  · intro hall
    refine List.eq_nil_iff_forall_not_mem.2 ?_
    intro u hu
    have hpos : 0 < s.undecoded.count u := List.count_pos_iff.2 hu
    have hu' := hcount u
    have hrev := hall u (List.count_pos_iff.1 (by omega))
    have hle := hone u
    omega
  · intro hnil u hu
    have hpos : 0 < s.created.count u := List.count_pos_iff.2 hu
    have hu' := hcount u
    have hle := hone u
    rw [hnil, List.count_nil] at hu'
    omega

theorem start (hash : String) : Good [] (State.initial.start hash) := by
  have hbefore : Good [] { State.initial with seq := 1, currentHash := hash } := by
    refine ⟨⟨rfl, nofun⟩, ⟨nofun, nofun⟩, ⟨nofun, nofun, nofun, nofun⟩, ⟨nofun, .nil⟩,
      ⟨nofun, nofun⟩, ⟨rfl, nofun⟩, ⟨fun _ => rfl, .nil, nofun⟩, nofun⟩
  exact hbefore.begin_cycle rfl rfl rfl rfl nofun

end Good

/-- **The loader is balanced in every run, and when it is destroyed and all is over it has revoked
every object URL just when no decode rejected.** -/
theorem stageLoader_balanced (hash : String) (evs : List Event)
    (hrun : AllSteps step Mounted (State.initial.start hash) evs) :
    let final := run step (State.initial.start hash) evs
    (final.starts = final.ends ∨ final.starts = final.ends + 1) ∧
    (final.destroyed = true → final.starts = final.ends) ∧
    (∀ (i j : Nat) (f g : Flight), final.flights[i]? = some f → final.flights[j]? = some g →
      f.aborted = false → g.aborted = false → i = j) ∧
    (∀ a ∈ final.assigned, a.url.cycle = a.current) ∧
    (final.assigned.Pairwise fun a b =>
      a.url.picture = .full → b.url.picture = .preview → a.url.cycle.mySeq ≠ b.url.cycle.mySeq) ∧
    (∀ u ∈ final.revoked, u ∈ final.created ∧ final.revoked.count u = 1) ∧
    (final.destroyed = true → (∀ f ∈ final.flights, f.stage = .finished) →
      ((∀ u ∈ final.created, final.revoked.count u = 1) ↔
        AllSteps step Decodes (State.initial.start hash) evs)) := by
  intro final
  have h : Good [] final := hrun.invariant (Good.start hash) fun _ _ hs => hs.step
  obtain ⟨hspin, hidle⟩ := h.spinner
  refine ⟨?_, ?_, ?_, fun a ha => (h.pictures.1 a ha).1, h.pictures.2, fun u => h.revoked_once, ?_⟩
  · cases hp : final.pending with
    | false => exact .inl (by simpa [hp] using hspin)
    | true => exact .inr (by simpa [hp] using hspin)
  · intro hgone
    simpa [hidle hgone] using hspin
  · intro i j f g hf hg hlive hlive'
    have hi := h.fetches.1 i f hf (.inl hlive)
    have hj := h.fetches.1 j g hg (.inl hlive')
    exact Option.some.inj (hi.symm.trans hj)
  · intro hgone hover
    rw [h.all_revoked_iff hgone hover, undecoded_run]
    exact and_iff_right rfl

/-- A picture is shown after its preview, and another is left before it is read. -/
def visit : List Event :=
  [.thumb 0, .preview, .debounce, .response 0 true, .body 0, .decode 0, .update "b", .thumb 0,
    .debounce, .thumb 1, .response 1 true, .destroy, .reject 1 true]

theorem stageLoader_balanced_visit :
    let final := run step (State.initial.start "a") visit
    final.starts = 2 ∧ final.ends = 2 ∧ final.created.length = 4 ∧
      ∀ u ∈ final.created, final.revoked.count u = 1 := by
  have hall := stageLoader_balanced "a" visit (by decide)
  have hends := hall.2.1 (by decide)
  have honce := (hall.2.2.2.2.2.2 (by decide) (by decide)).2 (by decide)
  exact ⟨by decide, hends.symm.trans (by decide), by decide, honce⟩

/-- A decode that rejects: the fetch is over, the stage is left, and the picture's URL stays. -/
theorem stageLoader_leak :
    let final := run step (State.initial.start "a")
      [.debounce, .response 0 true, .body 0, .reject 0 false, .destroy]
    AllSteps step Mounted (State.initial.start "a")
      [.debounce, .response 0 true, .body 0, .reject 0 false, .destroy] ∧
    final.destroyed = true ∧ (∀ f ∈ final.flights, f.stage = .finished) ∧
    ∃ u ∈ final.created, u ∉ final.revoked := by
  intro final
  refine ⟨by decide, by decide, by decide, ⟨0, ⟨1, "a"⟩, .full⟩, by decide, by decide⟩

end StageLoader
end Ui
end Naiad
