import Naiad.Lib.Run

/-!
# Naiad.Ui.StageLoader

The loader of the picture on the stage. Each hash begins a cycle with a number of its own: a
thumbnail is requested at once and shown after a while if the picture is not there yet, and the
picture is fetched, read and decoded once the hash has settled. What comes in later than its cycle
finds that the number has moved on.

* `step`: one event.
* `clear_eq`: what the end of a cycle leaves.
* `undecoded_run`: only a decode that rejects leaves its object URL.
-/

namespace Naiad
namespace Ui
namespace StageLoader

open Lib

/-! ## The loader -/

/-- What the closures of a cycle carry. -/
structure Cycle where
  mySeq : Nat
  hash : String
deriving DecidableEq

inductive Picture
  | preview
  | full
deriving DecidableEq

/-- An object URL, and what it is a picture of. -/
structure Url where
  id : Nat
  cycle : Cycle
  picture : Picture
deriving DecidableEq

/-- What a call of `runFull` waits for. -/
inductive Stage
  | fetching
  | reading
  | decoding (url : Url)
  | finished
deriving DecidableEq

structure Flight where
  cycle : Cycle
  stage : Stage
  aborted : Bool
deriving DecidableEq

/-- `onLoad` and `onError`, which do the same. -/
structure Handler where
  mySeq : Nat
  url : Url
deriving DecidableEq

/-- What the element was given, and the cycle there was. -/
structure Assigned where
  url : Url
  current : Cycle
deriving DecidableEq

/-- The variables of an instance, the element's listeners, and what was called and made. -/
structure State where
  currentHash : String
  seq : Nat
  debounceTimer : Option Cycle
  previewTimer : Option Cycle
  previewReady : Bool
  stashedThumbUrl : Option Url
  /-- The call of `runFull` whose controller it is. -/
  controller : Option Nat
  objThumbUrl : Option Url
  objFullUrl : Option Url
  /-- `imgLoadHandler` and `imgErrorHandler`: they are set and removed together. -/
  imgHandlers : Option Handler
  pending : Bool
  fullShown : Bool
  listeners : List Handler
  assigned : List Assigned
  starts : Nat
  ends : Nat
  /-- The requests of thumbnails; a cancelled one may still call back. -/
  thumbs : List Cycle
  /-- The calls of `runFull`. -/
  flights : List Flight
  created : List Url
  revoked : List Url
  /-- The URLs whose decode rejected. -/
  undecoded : List Url
  destroyed : Bool
deriving DecidableEq

namespace State

def settle (s : State) : State :=
  if s.pending then { s with pending := false, ends := s.ends + 1 } else s

def removeImgListeners (s : State) : State :=
  match s.imgHandlers with
  | some h => { s with listeners := s.listeners.erase h, imgHandlers := none }
  | none => s

def revokeObjectURL (s : State) (url : Url) : State := { s with revoked := url :: s.revoked }

def revokeThumb (s : State) : State :=
  match s.objThumbUrl with
  | some url => { s.revokeObjectURL url with objThumbUrl := none }
  | none => s

def revokeFull (s : State) : State :=
  match s.objFullUrl with
  | some url => { s.revokeObjectURL url with objFullUrl := none }
  | none => s

def revokeStash (s : State) : State :=
  match s.stashedThumbUrl with
  | some url => { s.revokeObjectURL url with stashedThumbUrl := none }
  | none => s

def cancelPreview (s : State) : State := { s with previewTimer := none }

/-- `img.src = url` -/
def assign (s : State) (url : Url) : State :=
  { s with assigned := s.assigned ++ [Assigned.mk url ⟨s.seq, s.currentHash⟩] }

def paintThumb (s : State) (url : Url) : State :=
  assign { s.revokeThumb with objThumbUrl := some url } url

def abort (s : State) : State :=
  match s.controller with
  | some i =>
    { s with flights := s.flights.modify i fun f => { f with aborted := true }, controller := none }
  | none => s

def clear (s : State) : State :=
  { s with debounceTimer := none }.cancelPreview.abort.removeImgListeners.settle.revokeThumb
    |>.revokeStash.revokeFull

/-- The next URL of `createObjectURL`. -/
def freshUrl (s : State) (cycle : Cycle) (picture : Picture) : Url :=
  ⟨s.created.length, cycle, picture⟩

def create (s : State) (url : Url) : State := { s with created := url :: s.created }

def setStage (s : State) (i : Nat) (stage : Stage) : State :=
  { s with flights := s.flights.modify i fun f => { f with stage := stage } }

/-! ### `runFull` -/

def runFull (s : State) (cycle : Cycle) : State :=
  { s with
    controller := some s.flights.length
    flights := s.flights ++ [Flight.mk cycle .fetching false] }

/-- The catch block. -/
def caught (s : State) (cycle : Cycle) (isAbort : Bool) : State :=
  if cycle.mySeq ≠ s.seq then s else if isAbort then s else s.settle

/-- After the decode. -/
def showFull (s : State) (cycle : Cycle) (url : Url) : State :=
  let s := s.revokeFull
  let s := { s with
    objFullUrl := some url
    imgHandlers := some ⟨cycle.mySeq, url⟩
    listeners := s.listeners ++ [Handler.mk cycle.mySeq url] }
  let s := s.cancelPreview.revokeStash
  assign { s with fullShown := true } url

def fetched (s : State) (i : Nat) (f : Flight) (ok : Bool) : State :=
  if f.cycle.mySeq ≠ s.seq then s.setStage i .finished
  else if ok then s.setStage i .reading
  else (s.setStage i .finished).caught f.cycle false

def bodyRead (s : State) (i : Nat) (f : Flight) : State :=
  if f.cycle.mySeq ≠ s.seq then s.setStage i .finished
  else
    let url := s.freshUrl f.cycle .full
    (s.create url).setStage i (.decoding url)

def decoded (s : State) (i : Nat) (f : Flight) (url : Url) : State :=
  let s := s.setStage i .finished
  if f.cycle.mySeq ≠ s.seq then s.revokeObjectURL url else s.showFull f.cycle url

/-- What is awaited rejects. -/
def rejected (s : State) (i : Nat) (f : Flight) (isAbort : Bool) : State :=
  match f.stage with
  | .finished => s
  | .decoding url =>
    { s.setStage i .finished with undecoded := url :: s.undecoded }.caught f.cycle isAbort
  | _ => (s.setStage i .finished).caught f.cycle isAbort

/-- `onLoad` and `onError` -/
def onImg (s : State) (h : Handler) : State :=
  let s := s.removeImgListeners
  if h.mySeq = s.seq then
    let s := s.settle.revokeThumb.revokeObjectURL h.url
    if s.objFullUrl = some h.url then { s with objFullUrl := none } else s
  else s

/-- A listener that another has removed is not called. -/
def dispatch (s : State) : State :=
  s.listeners.foldl (fun s h => if h ∈ s.listeners then s.onImg h else s) s

/-! ### Cycles -/

def start (s : State) (hash : String) : State :=
  let cycle : Cycle := ⟨s.seq + 1, hash⟩
  { s with
    currentHash := hash
    seq := s.seq + 1
    pending := true
    fullShown := false
    previewReady := false
    starts := s.starts + 1
    thumbs := s.thumbs ++ [cycle]
    previewTimer := some cycle
    debounceTimer := some cycle }

def onBlob (s : State) (cycle : Cycle) : State :=
  let url := s.freshUrl cycle .preview
  let s := s.create url
  if cycle.mySeq ≠ s.seq then s.revokeObjectURL url
  else if s.fullShown then s.revokeObjectURL url
  else if s.previewReady then s.paintThumb url
  else { s.revokeStash with stashedThumbUrl := some url }

def previewFires (s : State) (cycle : Cycle) : State :=
  let s := { s with previewTimer := none }
  if cycle.mySeq ≠ s.seq ∨ s.fullShown then s
  else
    let s := { s with previewReady := true }
    match s.stashedThumbUrl with
    | some url => paintThumb { s with stashedThumbUrl := none } url
    | none => s

def debounceFires (s : State) (cycle : Cycle) : State :=
  let s := { s with debounceTimer := none }
  if cycle.mySeq ≠ s.seq then s else s.runFull cycle

def update (s : State) (hash : String) : State :=
  if hash = s.currentHash then s else s.clear.start hash

def destroy (s : State) : State := { s with seq := s.seq + 1, destroyed := true }.clear

/-- The variables before the first cycle. -/
def initial : State where
  currentHash := ""
  seq := 0
  debounceTimer := none
  previewTimer := none
  previewReady := false
  stashedThumbUrl := none
  controller := none
  objThumbUrl := none
  objFullUrl := none
  imgHandlers := none
  pending := false
  fullShown := false
  listeners := []
  assigned := []
  starts := 0
  ends := 0
  thumbs := []
  flights := []
  created := []
  revoked := []
  undecoded := []
  destroyed := false

end State

/-! ## Events -/

inductive Event
  | update (hash : String)
  | destroy
  | debounce
  | preview
  /-- The thumbnail of a request; its `onError` does nothing. -/
  | thumb (request : Nat)
  /-- The response of a call of `runFull`, ok or not. -/
  | response (flight : Nat) (ok : Bool)
  | body (flight : Nat)
  | decode (flight : Nat)
  /-- What a call of `runFull` waits for rejects. -/
  | reject (flight : Nat) (isAbort : Bool)
  /-- The element's `load` or `error`. -/
  | img
deriving DecidableEq

/-- An event that nothing waits for does not happen. -/
def step (s : State) : Event → State
  | .update hash => s.update hash
  | .destroy => s.destroy
  | .debounce => s.debounceTimer.elim s s.debounceFires
  | .preview => s.previewTimer.elim s s.previewFires
  | .thumb request => s.thumbs[request]?.elim s s.onBlob
  | .response i ok =>
    match s.flights[i]? with
    | some f => if f.stage = .fetching then s.fetched i f ok else s
    | none => s
  | .body i =>
    match s.flights[i]? with
    | some f => if f.stage = .reading then s.bodyRead i f else s
    | none => s
  | .decode i =>
    match s.flights[i]? with
    | some f =>
      match f.stage with
      | .decoding url => s.decoded i f url
      | _ => s
    | none => s
  | .reject i isAbort =>
    match s.flights[i]? with
    | some f => s.rejected i f isAbort
    | none => s
  | .img => s.dispatch

/-! ## What the helpers change -/

namespace State

/-- The flights after the current one was aborted. -/
def abortedFlights (s : State) : List Flight :=
  s.controller.elim s.flights fun i => s.flights.modify i fun f => { f with aborted := true }

theorem settle_eq (s : State) :
    s.settle = { s with pending := false, ends := s.ends + s.pending.toNat } := by
  unfold settle
  cases s with
  | mk _ _ _ _ _ _ _ _ _ _ pending =>
    cases pending with
    | false => rfl
    | true => rfl

theorem removeImgListeners_eq (s : State) : s.removeImgListeners =
    { s with
      listeners := s.imgHandlers.elim s.listeners s.listeners.erase
      imgHandlers := none } := by
  unfold removeImgListeners
  cases s with
  | mk _ _ _ _ _ _ _ _ _ imgHandlers =>
    cases imgHandlers with
    | none => rfl
    | some h => rfl

theorem revokeThumb_eq (s : State) : s.revokeThumb =
    { s with objThumbUrl := none, revoked := s.objThumbUrl.toList ++ s.revoked } := by
  unfold revokeThumb
  cases s with
  | mk _ _ _ _ _ _ _ objThumbUrl =>
    cases objThumbUrl with
    | none => rfl
    | some url => rfl

theorem revokeFull_eq (s : State) : s.revokeFull =
    { s with objFullUrl := none, revoked := s.objFullUrl.toList ++ s.revoked } := by
  unfold revokeFull
  cases s with
  | mk _ _ _ _ _ _ _ _ objFullUrl =>
    cases objFullUrl with
    | none => rfl
    | some url => rfl

theorem revokeStash_eq (s : State) : s.revokeStash =
    { s with stashedThumbUrl := none, revoked := s.stashedThumbUrl.toList ++ s.revoked } := by
  unfold revokeStash
  cases s with
  | mk _ _ _ _ _ stashedThumbUrl =>
    cases stashedThumbUrl with
    | none => rfl
    | some url => rfl

theorem abort_eq (s : State) :
    s.abort = { s with flights := s.abortedFlights, controller := none } := by
  unfold abort abortedFlights
  cases s with
  | mk _ _ _ _ _ _ controller =>
    cases controller with
    | none => rfl
    | some i => rfl

/-- `clear` leaves no timer, controller, listener or URL. -/
theorem clear_eq (s : State) : s.clear =
    { s with
      debounceTimer := none
      previewTimer := none
      flights := s.abortedFlights
      controller := none
      listeners := s.imgHandlers.elim s.listeners s.listeners.erase
      imgHandlers := none
      pending := false
      ends := s.ends + s.pending.toNat
      objThumbUrl := none
      stashedThumbUrl := none
      objFullUrl := none
      revoked := s.objFullUrl.toList ++
        (s.stashedThumbUrl.toList ++ (s.objThumbUrl.toList ++ s.revoked)) } := by
  simp only [clear, cancelPreview, abort_eq, removeImgListeners_eq, settle_eq, revokeThumb_eq,
    revokeStash_eq, revokeFull_eq]
  rfl

end State

/-! ## Flights -/

def Flight.url? (f : Flight) : Option Url :=
  match f.stage with
  | .decoding url => some url
  | _ => none

/-- The URLs that are decoded. -/
def decodings (flights : List Flight) : List Url := flights.flatMap fun f => f.url?.toList

theorem of_getElem?_modify {l : List Flight} {i j : Nat} {g : Flight → Flight} {f' : Flight}
    (h : (l.modify i g)[j]? = some f') :
    ∃ f, l[j]? = some f ∧ ((f' = f ∧ i ≠ j) ∨ (f' = g f ∧ i = j)) := by
  rw [List.getElem?_modify] at h
  obtain ⟨f, hf, hf'⟩ := Option.map_eq_some_iff.1 h
  by_cases hij : i = j
  · rw [if_pos hij] at hf'
    exact ⟨f, hf, .inr ⟨hf'.symm, hij⟩⟩
  · rw [if_neg hij] at hf'
    exact ⟨f, hf, .inl ⟨hf'.symm, hij⟩⟩

theorem of_mem_modify {l : List Flight} {i : Nat} {g : Flight → Flight} {f' : Flight}
    (h : f' ∈ l.modify i g) : f' ∈ l ∨ ∃ f, l[i]? = some f ∧ f' = g f := by
  obtain ⟨j, hj⟩ := List.mem_iff_getElem?.1 h
  obtain ⟨f, hf, ⟨rfl, _⟩ | ⟨rfl, rfl⟩⟩ := of_getElem?_modify hj
  · exact .inl (List.mem_of_getElem? hf)
  · exact .inr ⟨f, hf, rfl⟩

theorem count_decodings_modify {l : List Flight} {i : Nat} {g : Flight → Flight} {f : Flight}
    (hf : l[i]? = some f) (u : Url) :
    (decodings (l.modify i g)).count u + f.url?.toList.count u =
      (decodings l).count u + (g f).url?.toList.count u := by
  induction l generalizing i with
  | nil => cases hf
  | cons a l ih =>
    cases i with
    | zero =>
      cases hf
      simp only [decodings, List.modify_zero_cons, List.flatMap_cons, List.count_append]
      omega
    | succ i =>
      have hrest := ih hf
      simp only [decodings] at hrest
      simp only [decodings, List.modify_succ_cons, List.flatMap_cons, List.count_append]
      omega

/-! ## Runs -/

/-- The framework updates no action after it destroyed it. -/
def Mounted (s : State) : Event → Prop
  | .update _ => s.destroyed = false
  | _ => True

/-- No decode rejects. -/
def Decodes (s : State) : Event → Prop
  | .reject i _ => ((s.flights[i]?).bind Flight.url?) = none
  | _ => True

instance : DecidableRel Mounted
  | s, .update _ => inferInstanceAs (Decidable (s.destroyed = false))
  | _, .destroy | _, .debounce | _, .preview | _, .thumb _ | _, .response _ _ | _, .body _
  | _, .decode _ | _, .reject _ _ | _, .img => isTrue trivial

instance : DecidableRel Decodes
  | s, .reject i _ => inferInstanceAs (Decidable (((s.flights[i]?).bind Flight.url?) = none))
  | _, .destroy | _, .debounce | _, .preview | _, .thumb _ | _, .response _ _ | _, .body _
  | _, .decode _ | _, .update _ | _, .img => isTrue trivial

/-! ### Decodes that reject -/

namespace State

variable (s : State)

@[simp] theorem undecoded_settle : s.settle.undecoded = s.undecoded := by rw [settle_eq]

@[simp] theorem undecoded_removeImgListeners : s.removeImgListeners.undecoded = s.undecoded := by
  rw [removeImgListeners_eq]

@[simp] theorem undecoded_revokeObjectURL (url : Url) :
    (s.revokeObjectURL url).undecoded = s.undecoded := rfl

@[simp] theorem undecoded_revokeThumb : s.revokeThumb.undecoded = s.undecoded := by
  rw [revokeThumb_eq]

@[simp] theorem undecoded_revokeFull : s.revokeFull.undecoded = s.undecoded := by
  rw [revokeFull_eq]

@[simp] theorem undecoded_revokeStash : s.revokeStash.undecoded = s.undecoded := by
  rw [revokeStash_eq]

@[simp] theorem undecoded_setStage (i : Nat) (stage : Stage) :
    (s.setStage i stage).undecoded = s.undecoded := rfl

@[simp] theorem undecoded_create (url : Url) : (s.create url).undecoded = s.undecoded := rfl

@[simp] theorem undecoded_clear : s.clear.undecoded = s.undecoded := by rw [clear_eq]

@[simp] theorem undecoded_caught (cycle : Cycle) (isAbort : Bool) :
    (s.caught cycle isAbort).undecoded = s.undecoded := by
  unfold caught
  split
  · rfl
  · split
    · rfl
    · simp

@[simp] theorem undecoded_paintThumb (url : Url) : (s.paintThumb url).undecoded = s.undecoded :=
  s.undecoded_revokeThumb

@[simp] theorem undecoded_onImg (h : Handler) : (s.onImg h).undecoded = s.undecoded := by
  unfold onImg
  dsimp only
  split
  · split
    · simp
    · simp
  · simp

@[simp] theorem undecoded_dispatch : s.dispatch.undecoded = s.undecoded := by
  unfold dispatch
  generalize s.listeners = listeners
  induction listeners generalizing s with
  | nil => rfl
  | cons h listeners ih =>
    rw [List.foldl_cons, ih]
    split
    · simp
    · rfl

@[simp] theorem undecoded_fetched (i : Nat) (f : Flight) (ok : Bool) :
    (s.fetched i f ok).undecoded = s.undecoded := by
  unfold fetched
  split
  · rfl
  · split
    · rfl
    · simp

@[simp] theorem undecoded_bodyRead (i : Nat) (f : Flight) :
    (s.bodyRead i f).undecoded = s.undecoded := by
  unfold bodyRead
  split
  · rfl
  · rfl

@[simp] theorem undecoded_showFull (cycle : Cycle) (url : Url) :
    (s.showFull cycle url).undecoded = s.undecoded := by
  unfold showFull
  rw [revokeFull_eq]
  dsimp only [cancelPreview]
  rw [revokeStash_eq]
  rfl

@[simp] theorem undecoded_decoded (i : Nat) (f : Flight) (url : Url) :
    (s.decoded i f url).undecoded = s.undecoded := by
  unfold decoded
  dsimp only
  split
  · rfl
  · simp

@[simp] theorem undecoded_onBlob (cycle : Cycle) : (s.onBlob cycle).undecoded = s.undecoded := by
  unfold onBlob
  dsimp only
  split
  · rfl
  · split
    · rfl
    · split
      · simp
      · simp

@[simp] theorem undecoded_previewFires (cycle : Cycle) :
    (s.previewFires cycle).undecoded = s.undecoded := by
  unfold previewFires
  dsimp only
  split
  · rfl
  · split
    · simp
    · rfl

@[simp] theorem undecoded_debounceFires (cycle : Cycle) :
    (s.debounceFires cycle).undecoded = s.undecoded := by
  unfold debounceFires
  dsimp only
  split
  · rfl
  · rfl

@[simp] theorem undecoded_update (hash : String) : (s.update hash).undecoded = s.undecoded := by
  unfold update
  split
  · rfl
  · exact s.undecoded_clear

@[simp] theorem undecoded_destroy : s.destroy.undecoded = s.undecoded :=
  undecoded_clear _

end State

theorem undecoded_rejected (s : State) (i : Nat) (f : Flight) (isAbort : Bool) :
    (s.rejected i f isAbort).undecoded = f.url?.toList ++ s.undecoded := by
  unfold State.rejected Flight.url?
  split
  · rename_i hstage
    simp [hstage]
  · rename_i url hstage
    simp [hstage]
  · rename_i hover hdecoding
    split
    · rename_i url hstage
      exact absurd hstage (hdecoding url)
    · simp

theorem undecoded_step_of_ne {s : State} {ev : Event} (hev : ∀ i isAbort, ev ≠ .reject i isAbort) :
    (step s ev).undecoded = s.undecoded := by
  cases ev with
  | update hash => exact s.undecoded_update hash
  | destroy => exact s.undecoded_destroy
  | debounce =>
    change (s.debounceTimer.elim s s.debounceFires).undecoded = _
    cases s.debounceTimer with
    | none => rfl
    | some c => exact s.undecoded_debounceFires c
  | preview =>
    change (s.previewTimer.elim s s.previewFires).undecoded = _
    cases s.previewTimer with
    | none => rfl
    | some c => exact s.undecoded_previewFires c
  | thumb request =>
    change (s.thumbs[request]?.elim s s.onBlob).undecoded = _
    cases s.thumbs[request]? with
    | none => rfl
    | some c => exact s.undecoded_onBlob c
  | response i ok =>
    unfold step
    dsimp only
    split
    · split
      · exact s.undecoded_fetched i _ ok
      · rfl
    · rfl
  | body i =>
    unfold step
    dsimp only
    split
    · split
      · exact s.undecoded_bodyRead i _
      · rfl
    · rfl
  | decode i =>
    unfold step
    dsimp only
    split
    · split
      · exact s.undecoded_decoded i _ _
      · rfl
    · rfl
  | reject i isAbort => exact absurd rfl (hev i isAbort)
  | img => exact s.undecoded_dispatch

/-- Only a decode that rejects leaves its URL. -/
theorem undecoded_step (s : State) (ev : Event) :
    (step s ev).undecoded = [] ↔ s.undecoded = [] ∧ Decodes s ev := by
  cases ev with
  | reject i isAbort =>
    unfold step Decodes
    dsimp only
    cases hf : s.flights[i]? with
    | none => simp
    | some f =>
      dsimp only
      rw [undecoded_rejected]
      cases hurl : f.url? with
      | none => simp [hurl]
      | some url => simp [hurl]
  | _ => simp [undecoded_step_of_ne, Decodes]

theorem undecoded_run (s : State) (evs : List Event) :
    (run step s evs).undecoded = [] ↔ s.undecoded = [] ∧ AllSteps step Decodes s evs := by
  induction evs generalizing s with
  | nil => simp [AllSteps]
  | cons ev evs ih =>
    rw [run_cons, ih, undecoded_step, AllSteps, and_assoc]

end StageLoader
end Ui
end Naiad
