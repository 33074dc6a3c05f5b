import Ervan.Common.Join
import Ervan.Library.Framing
import Ervan.Library.Run

/-!
# Looking for escapes and terminators

`look` shifts a chunk through a match window and stops at the first byte that completes the
escape or the terminator. `total_length` carries the count of the bytes since the last terminator
from one call to the next. What is found depends on the stream alone, however it is cut.
-/

namespace Ervan

open Framing

/-- The fields of `loop_state` that `look` uses. -/
structure LoopState where
  tCheck : Bytes
  maxSize : Nat
  totalLength : Int
  terminator : Bytes
  escape : Bytes
  deriving DecidableEq, Repr

/-- The span of a `loop_result`: null, the first bytes of the chunk, or a length from the start
of the match window. -/
inductive LookSpan
  | null
  | chunk (len : Nat)
  | window (len : Nat)
  deriving DecidableEq, Repr

/-- `ec` tells `result_out_of_range`. -/
structure LoopResult where
  sp : LookSpan
  rest : Bytes
  ec : Bool
  escape : Bool
  deriving DecidableEq, Repr

/-- `memcmp` of the end of the window with the escape. -/
def LoopState.escaped (s : LoopState) : Bool :=
  s.tCheck.drop (s.tCheck.length - s.escape.length) == s.escape

/-- `memcmp` of the window with the terminator. -/
def LoopState.terminated (s : LoopState) : Bool :=
  s.tCheck == s.terminator.take s.tCheck.length

/-- The loop of `look` over a chunk of `size` bytes. The index `i` is an `int`, which ends the
loop when it would pass `2 ^ 31`. -/
def lookLoop (size : Nat) : Bytes → Nat → LoopState → LoopState × LoopResult
  | [], _, s => ({ s with totalLength := int32 (s.totalLength + size) }, ⟨.null, [], false, false⟩)
  | c :: rest, i, s =>
      if 2 ^ 31 ≤ i then
        ({ s with totalLength := int32 (s.totalLength + size) }, ⟨.null, [], false, false⟩)
      else
        let s := { s with tCheck := pushBack s.tCheck c }
        if s.escaped then
          ({ s with totalLength := int32 (s.totalLength + (i + 1)) }, ⟨.chunk i, rest, false, true⟩)
        else if s.terminated then
          let targetLen := sizeT (int32 (s.totalLength + i) - s.tCheck.length + 1)
          let s := { s with totalLength := 0 }
          if s.maxSize < targetLen then (s, ⟨.null, rest, true, false⟩)
          else (s, ⟨.window targetLen, rest, false, false⟩)
        else lookLoop size rest (i + 1) s

def look (s : LoopState) (src : Bytes) : LoopState × LoopResult :=
  if src = [] then (s, ⟨.null, [], false, false⟩) else lookLoop src.length src 0 s

/-- What a call reports, after so many bytes of the stream. -/
inductive Sighting
  | escape (after : Nat)
  | terminator (after length : Nat)
  | outOfRange (after : Nat)
  deriving DecidableEq, Repr

namespace Sighting

/-- Where a record ends. -/
def stop : Sighting → Option Nat
  | escape _ => none
  | terminator after _ => some after
  | outOfRange after => some after

/-- The report of a call that has taken the stream up to `after`. -/
def ofResult (result : LoopResult) (after : Nat) : List Sighting :=
  if result.escape then [escape after]
  else if result.ec then [outOfRange after]
  else
    match result.sp with
    | .window length => [terminator after length]
    | _ => []

/-- The end of the last record, or the start of the stream. -/
def lastStop (sightings : List Sighting) : Nat := (sightings.filterMap stop).getLastD 0

end Sighting

/-- A stream on its way through `look`: what is left of the chunk and the chunks to come, how many
bytes have been taken, and what has been reported. -/
structure Looking where
  state : LoopState
  rest : Bytes
  chunks : List Bytes
  position : Nat
  sightings : List Sighting
  deriving DecidableEq, Repr

namespace Looking

def call (t : Looking) (src : Bytes) (chunks : List Bytes) : Looking :=
  let (s, result) := look t.state src
  let position := t.position + (src.length - result.rest.length)
  ⟨s, result.rest, chunks, position, t.sightings ++ Sighting.ofResult result position⟩

/-- The next call is for the rest of the chunk, if there is one, and else for the next chunk. -/
def step (t : Looking) : Looking :=
  if t.rest = [] then
    match t.chunks with
    | [] => t
    | chunk :: chunks => t.call chunk chunks
  else t.call t.rest t.chunks

def start (s : LoopState) (chunks : List Bytes) : Looking := ⟨s, [], chunks, 0, []⟩

/-- All calls for a stream. Each takes a byte or a chunk. -/
def finish (s : LoopState) (chunks : List Bytes) : Looking :=
  step^[chunks.flatten.length + chunks.length] (start s chunks)

/-- The bytes that are left. -/
def ahead (t : Looking) : Bytes := t.rest ++ t.chunks.flatten

end Looking

/-- What there is to see in a stream behind `window`, when `since` bytes have been taken since the
last terminator and `after` bytes of the stream. -/
def visible (maxSize : Nat) (terminator escape : Bytes) :
    Bytes → Nat → Nat → Bytes → List Sighting
  | _, _, _, [] => []
  | window, since, after, c :: bs =>
      if escape <:+ Framing.push window c then
        .escape (after + 1) ::
          visible maxSize terminator escape (Framing.push window c) (since + 1) (after + 1) bs
      else if Framing.push window c = terminator then
        (if maxSize < sizeT ((since : Int) + 1 - terminator.length) then .outOfRange (after + 1)
          else .terminator (after + 1) (sizeT ((since : Int) + 1 - terminator.length))) ::
            visible maxSize terminator escape (Framing.push window c) 0 (after + 1) bs
      else visible maxSize terminator escape (Framing.push window c) (since + 1) (after + 1) bs

namespace LoopState

/-- What there is to see from a state on. -/
def sees (s : LoopState) (since after : Nat) (bs : Bytes) : List Sighting :=
  visible s.maxSize s.terminator s.escape s.tCheck since after bs

/-- The window is as long as the terminator, which is not empty, and the escape is no longer. -/
structure Fitting (s : LoopState) : Prop where
  window : s.tCheck.length = s.terminator.length
  terminator_ne : s.terminator ≠ []
  escape_ne : s.escape ≠ []
  escape_le : s.escape.length ≤ s.terminator.length

/-- Calls change the window and the count only. -/
structure Same (s s' : LoopState) : Prop where
  maxSize : s'.maxSize = s.maxSize
  terminator : s'.terminator = s.terminator
  escape : s'.escape = s.escape
  window : s'.tCheck.length = s.tCheck.length

end LoopState

/-- A call that takes the first bytes of `src`: it reports what is seen in them, and counts on or
starts again. -/
structure Looked (s : LoopState) (since after : Nat) (src : Bytes) (s' : LoopState)
    (result : LoopResult) : Prop where
  same : s.Same s'
  taken : ∃ bs, src = bs ++ result.rest ∧ (src ≠ [] → bs ≠ []) ∧ ∃ since' : Nat,
    s'.totalLength = since' ∧
    ((Sighting.ofResult result (after + bs.length)).filterMap Sighting.stop = [] ∧
        since' = since + bs.length ∨
      (Sighting.ofResult result (after + bs.length)).filterMap Sighting.stop =
        [after + bs.length] ∧ since' = 0) ∧
    ∀ more, s.sees since after (bs ++ more) =
      Sighting.ofResult result (after + bs.length) ++ s'.sees since' (after + bs.length) more

section Loop

variable {s : LoopState} {c : UInt8} {src : Bytes}

theorem escaped_iff (s : LoopState) : s.escaped = true ↔ s.escape <:+ s.tCheck := by
  rw [LoopState.escaped, beq_iff_eq, List.suffix_iff_eq_drop]
  exact eq_comm

theorem terminated_iff (h : s.tCheck.length = s.terminator.length) :
    s.terminated = true ↔ s.tCheck = s.terminator := by
  rw [LoopState.terminated, beq_iff_eq, h, List.take_length]

theorem sees_cons (s : LoopState) (since after : Nat) (c : UInt8) (bs : Bytes) :
    s.sees since after (c :: bs) =
      if s.escape <:+ pushBack s.tCheck c then
        .escape (after + 1) ::
          { s with tCheck := pushBack s.tCheck c }.sees (since + 1) (after + 1) bs
      else if pushBack s.tCheck c = s.terminator then
        (if s.maxSize < sizeT ((since : Int) + 1 - s.terminator.length) then .outOfRange (after + 1)
          else .terminator (after + 1) (sizeT ((since : Int) + 1 - s.terminator.length))) ::
            { s with tCheck := pushBack s.tCheck c }.sees 0 (after + 1) bs
      else { s with tCheck := pushBack s.tCheck c }.sees (since + 1) (after + 1) bs := rfl

theorem same_push (s : LoopState) (c : UInt8) : s.Same { s with tCheck := pushBack s.tCheck c } :=
  ⟨rfl, rfl, rfl, length_pushBack s.tCheck c⟩

theorem LoopState.Same.trans {s s' s'' : LoopState} (h : s.Same s') (h' : s'.Same s'') :
    s.Same s'' :=
  ⟨h'.maxSize.trans h.maxSize, h'.terminator.trans h.terminator, h'.escape.trans h.escape,
    h'.window.trans h.window⟩

/-- The loop goes on behind the bytes it has taken. -/
theorem lookLoop_looked {size i since after : Nat} (hwindow : s.tCheck.length = s.terminator.length)
    (htotal : s.totalLength = since) (hsize : i + src.length = size)
    (hbound : since + size < 2 ^ 31) :
    Looked s (since + i) (after + i) src (lookLoop size src i s).1 (lookLoop size src i s).2 := by
  induction src generalizing i s with
  | nil =>
      obtain rfl : i = size := hsize
      have hcount : int32 (s.totalLength + i) = ((since + i : Nat) : Int) := by
        rw [htotal, ← Int.natCast_add]
        exact int32_natCast hbound
      rw [lookLoop, hcount]
      exact ⟨⟨rfl, rfl, rfl, rfl⟩, [], rfl, fun h => absurd rfl h, since + i, rfl,
        Or.inl ⟨rfl, rfl⟩, fun more => rfl⟩
  | cons c src ih =>
      rw [List.length_cons] at hsize
      have hpush := same_push s c
      have hterminated := terminated_iff (s := { s with tCheck := pushBack s.tCheck c })
        (hpush.window.trans hwindow)
      have hescaped := escaped_iff { s with tCheck := pushBack s.tCheck c }
      rw [lookLoop, if_neg (by omega)]
      dsimp only
      by_cases hescape : s.escape <:+ pushBack s.tCheck c
      · have hcount : int32 (s.totalLength + (i + 1)) = ((since + i + 1 : Nat) : Int) := by
          rw [htotal, ← int32_natCast (show since + i + 1 < 2 ^ 31 by omega)]
          rfl
        rw [if_pos (hescaped.mpr hescape), hcount]
        refine ⟨⟨rfl, rfl, rfl, hpush.window⟩, [c], rfl, fun _ => List.cons_ne_nil c [],
          since + i + 1, rfl, Or.inl ⟨rfl, rfl⟩, fun more => ?_⟩
        rw [List.cons_append, sees_cons, if_pos hescape]
        rfl
      · rw [if_neg (fun h => hescape (hescaped.mp h))]
        by_cases hterminator : pushBack s.tCheck c = s.terminator
        · have hcount : int32 (s.totalLength + i) = ((since + i : Nat) : Int) := by
            rw [htotal, ← Int.natCast_add]
            exact int32_natCast (by omega)
          have hlength : ((since + i : Nat) : Int) - (pushBack s.tCheck c).length + 1 =
              ((since + i : Nat) : Int) + 1 - s.terminator.length := by
            rw [hterminator]
            omega
          rw [if_pos (hterminated.mpr hterminator), hcount, hlength]
          have hsees (more : Bytes) := sees_cons s (since + i) (after + i) c more
          simp only [if_neg hescape, if_pos hterminator] at hsees
          by_cases hlarge : s.maxSize < sizeT (((since + i : Nat) : Int) + 1 - s.terminator.length)
          · rw [if_pos hlarge]
            simp only [if_pos hlarge] at hsees
            exact ⟨⟨rfl, rfl, rfl, hpush.window⟩, [c], rfl, fun _ => List.cons_ne_nil c [],
              0, rfl, Or.inr ⟨rfl, rfl⟩, hsees⟩
          · rw [if_neg hlarge]
            simp only [if_neg hlarge] at hsees
            exact ⟨⟨rfl, rfl, rfl, hpush.window⟩, [c], rfl, fun _ => List.cons_ne_nil c [],
              0, rfl, Or.inr ⟨rfl, rfl⟩, hsees⟩
        · rw [if_neg (fun h => hterminator (hterminated.mp h))]
          obtain ⟨hsame, bs, htaken, -, since', htotal', hstop, hsees⟩ :=
            ih (s := { s with tCheck := pushBack s.tCheck c }) (i := i + 1)
              (hpush.window.trans hwindow) htotal (by omega)
          have hafter : after + i + (c :: bs).length = after + (i + 1) + bs.length := by
            rw [List.length_cons]
            omega
          refine ⟨hpush.trans hsame, c :: bs, ?_, fun _ => List.cons_ne_nil c bs, since', htotal',
            ?_, fun more => ?_⟩
          · rw [List.cons_append, ← htaken]
          · rw [hafter]
            refine hstop.imp_left fun h => ⟨h.1, ?_⟩
            rw [h.2, List.length_cons]
            omega
          · rw [hafter, ← hsees more, List.cons_append, sees_cons, if_neg hescape,
              if_neg hterminator]
            rfl

/-- A call, also for nothing. -/
theorem look_looked {since : Nat} (after : Nat) (src : Bytes)
    (hwindow : s.tCheck.length = s.terminator.length) (htotal : s.totalLength = since)
    (hbound : since + src.length < 2 ^ 31) :
    Looked s since after src (look s src).1 (look s src).2 := by
  unfold look
  by_cases hsrc : src = []
  · rw [if_pos hsrc, hsrc]
    exact ⟨⟨rfl, rfl, rfl, rfl⟩, [], rfl, fun h => absurd rfl h, since, htotal,
      Or.inl ⟨rfl, rfl⟩, fun more => rfl⟩
  · rw [if_neg hsrc]
    exact lookLoop_looked (i := 0) hwindow htotal (Nat.zero_add _) hbound

end Loop

namespace Looking

open Sighting

variable {s : LoopState} {stream : Bytes} {t : Looking}

/-- The bytes since the end of the last record. -/
def since (t : Looking) : Nat := t.position - lastStop t.sightings

/-- The part of the stream that has been taken. What has been reported is what there is to see in
it, whatever follows, and the count is right. -/
structure Watches (s : LoopState) (stream : Bytes) (t : Looking) : Prop where
  window : t.state.tCheck.length = t.state.terminator.length
  stop_le : lastStop t.sightings ≤ t.position
  total : t.state.totalLength = t.since
  taken : ∃ bs, stream = bs ++ t.ahead ∧ bs.length = t.position ∧
    ∀ more, t.sightings ++ t.state.sees t.since t.position more = s.sees 0 0 (bs ++ more)

/-- What has been reported is what there is to see in what has been taken. -/
theorem Watches.seen (h : Watches s stream t) :
    t.sightings = s.sees 0 0 (stream.take t.position) := by
  obtain ⟨bs, hstream, hlength, hseen⟩ := h.taken
  have hnothing : t.state.sees t.since t.position [] = [] := rfl
  have hbs := hseen []
  rw [hnothing, List.append_nil, List.append_nil] at hbs
  rw [hbs, hstream, List.take_left' hlength]

theorem lastStop_none {new : List Sighting} (h : new.filterMap stop = []) (seen : List Sighting) :
    lastStop (seen ++ new) = lastStop seen := by
  rw [lastStop, List.filterMap_append, h, List.append_nil]
  rfl

theorem lastStop_some {new : List Sighting} {n : Nat} (h : new.filterMap stop = [n])
    (seen : List Sighting) : lastStop (seen ++ new) = n := by
  rw [lastStop, List.filterMap_append, h, List.getLastD_concat]

/-- What a call does to the stream. -/
theorem call_eq {src bs : Bytes} {chunks : List Bytes} (h : src = bs ++ (look t.state src).2.rest) :
    t.call src chunks = ⟨(look t.state src).1, (look t.state src).2.rest, chunks,
      t.position + bs.length,
      t.sightings ++ ofResult (look t.state src).2 (t.position + bs.length)⟩ := by
  have hlength : src.length - (look t.state src).2.rest.length = bs.length := by
    have hlength := congrArg List.length h
    rw [List.length_append] at hlength
    omega
  simp only [call, hlength]

theorem Watches.looked {src : Bytes} {chunks : List Bytes} (h : Watches s stream t)
    (hbound : stream.length < 2 ^ 31) (hahead : t.ahead = src ++ chunks.flatten) :
    Looked t.state t.since t.position src (look t.state src).1 (look t.state src).2 := by
  obtain ⟨bs, hstream, hlength, -⟩ := h.taken
  have hle := h.stop_le
  rw [hstream, hahead, List.length_append, List.length_append] at hbound
  refine look_looked t.position src h.window h.total ?_
  unfold since
  omega

theorem Watches.call {src : Bytes} {chunks : List Bytes} (h : Watches s stream t)
    (hbound : stream.length < 2 ^ 31) (hahead : t.ahead = src ++ chunks.flatten) :
    Watches s stream (t.call src chunks) := by
  obtain ⟨hsame, new, htaken, -, since', htotal, hstop, hsees⟩ := h.looked hbound hahead
  obtain ⟨bs, hstream, hlength, hseen⟩ := h.taken
  have hle := h.stop_le
  have hsince : (t.call src chunks).since = since' ∧
      lastStop (t.call src chunks).sightings ≤ (t.call src chunks).position := by
    simp only [call_eq htaken, since]
    rcases hstop with ⟨hnone, rfl⟩ | ⟨hsome, rfl⟩
    · rw [lastStop_none hnone, since]
      omega
    · rw [lastStop_some hsome]
      omega
  refine ⟨?_, hsince.2, ?_, bs ++ new, ?_, ?_, fun more => ?_⟩
  · rw [call_eq htaken]
    exact hsame.window.trans (h.window.trans (by rw [hsame.terminator]))
  · rw [hsince.1, call_eq htaken]
    exact htotal
  · rw [hstream, hahead, call_eq htaken, ahead]
    nth_rewrite 1 [htaken]
    simp only [List.append_assoc]
  · rw [call_eq htaken, List.length_append, hlength]
  · rw [List.append_assoc, ← hseen (new ++ more), hsees more, hsince.1, call_eq htaken,
      List.append_assoc]

/-- The stream is at its end. -/
def Done (t : Looking) : Prop := t.rest = [] ∧ t.chunks = []

/-- A step is a call for what comes next, if there is anything. -/
theorem step_cases (t : Looking) : t.Done ∧ t.step = t ∨ ∃ src chunks,
    t.step = t.call src chunks ∧ t.ahead = src ++ chunks.flatten ∧
      (src ≠ [] ∧ chunks.length = t.chunks.length ∨ chunks.length < t.chunks.length) := by
  by_cases hrest : t.rest = []
  · rw [Looking.step, if_pos hrest]
    cases hchunks : t.chunks with
    | nil => exact Or.inl ⟨⟨hrest, hchunks⟩, rfl⟩
    | cons chunk chunks =>
        refine Or.inr ⟨chunk, chunks, rfl, ?_, Or.inr (Nat.lt_succ_self _)⟩
        rw [ahead, hrest, hchunks]
        rfl
  · rw [Looking.step, if_neg hrest]
    exact Or.inr ⟨t.rest, t.chunks, rfl, rfl, Or.inl ⟨hrest, rfl⟩⟩

theorem Watches.step (h : Watches s stream t) (hbound : stream.length < 2 ^ 31) :
    Watches s stream t.step := by
  rcases step_cases t with ⟨-, hstep⟩ | ⟨src, chunks, hstep, hahead, -⟩
  · rwa [hstep]
  · rw [hstep]
    exact h.call hbound hahead

theorem watches_start {chunks : List Bytes} (hwindow : s.tCheck.length = s.terminator.length)
    (htotal : s.totalLength = 0) : Watches s chunks.flatten (start s chunks) :=
  ⟨hwindow, Nat.le_refl 0, htotal, [], rfl, rfl, fun _ => rfl⟩

/-- Every call takes a byte or a chunk. -/
theorem Watches.shorter (h : Watches s stream t) (hbound : stream.length < 2 ^ 31)
    (hdone : ¬ t.Done) :
    t.step.ahead.length + t.step.chunks.length < t.ahead.length + t.chunks.length := by
  rcases step_cases t with ⟨done, -⟩ | ⟨src, chunks, hstep, hahead, hnext⟩
  · exact absurd done hdone
  · obtain ⟨-, bs, htaken, hne, -⟩ := h.looked hbound hahead
    have hlength := congrArg List.length htaken
    rw [List.length_append] at hlength
    rw [hstep, hahead]
    simp only [call_eq htaken, ahead, List.length_append]
    rcases hnext with ⟨hsrc, hchunks⟩ | hchunks
    · have hpos := List.length_pos_iff.mpr (hne hsrc)
      omega
    · omega

theorem Done.step (h : t.Done) : t.step = t := by
  rw [Looking.step, if_pos h.1, h.2]

theorem Done.iterate (h : t.Done) (n : Nat) : Looking.step^[n] t = t := by
  induction n with
  | zero => rfl
  | succ n ih => rw [Function.iterate_succ_apply, h.step, ih]

/-- The calls come to the end of the stream. -/
theorem Watches.done {n : Nat} (h : Watches s stream t) (hbound : stream.length < 2 ^ 31)
    (hn : t.ahead.length + t.chunks.length ≤ n) : (Looking.step^[n] t).Done := by
  induction n generalizing t with
  | zero =>
      have hahead : t.ahead = [] := List.eq_nil_of_length_eq_zero (by omega)
      have hchunks : t.chunks = [] := List.eq_nil_of_length_eq_zero (by omega)
      exact ⟨(List.append_eq_nil_iff.mp hahead).1, hchunks⟩
  | succ n ih =>
      by_cases hdone : t.Done
      · rw [hdone.iterate]
        exact hdone
      · have hshorter := h.shorter hbound hdone
        exact ih (h.step hbound) (by omega)

theorem watches_always (s : LoopState) (chunks : List Bytes)
    (hwindow : s.tCheck.length = s.terminator.length) (htotal : s.totalLength = 0)
    (hbound : chunks.flatten.length < 2 ^ 31) :
    Run.Always step (Watches s chunks.flatten) (start s chunks) :=
  Run.always_of_step step (watches_start hwindow htotal) fun _ h => h.step hbound

/-- All of the stream has been taken, and what is reported is what there is to see in it. -/
theorem finish_seen (chunks : List Bytes) (hwindow : s.tCheck.length = s.terminator.length)
    (htotal : s.totalLength = 0) (hbound : chunks.flatten.length < 2 ^ 31) :
    (finish s chunks).Done ∧ (finish s chunks).sightings = s.sees 0 0 chunks.flatten := by
  have hwatches : Watches s chunks.flatten (finish s chunks) :=
    watches_always s chunks hwindow htotal hbound (chunks.flatten.length + chunks.length)
  have hdone : (finish s chunks).Done :=
    (watches_start hwindow htotal).done hbound (Nat.le_refl _)
  have hahead : (finish s chunks).ahead = [] := by
    rw [ahead, hdone.1, hdone.2]
    rfl
  obtain ⟨bs, hstream, hlength, -⟩ := hwatches.taken
  have hseen := hwatches.seen
  rw [hahead, List.append_nil] at hstream
  rw [← hlength, hstream, List.take_length] at hseen
  exact ⟨hdone, hstream ▸ hseen⟩

/-- However a stream is cut into chunks, the calls take all of it and report the same, which is
what there is to see in it. After each call what has been reported is what there is to see in the
bytes that have been taken, and the count is that of the bytes since the last terminator. -/
theorem look_chunks (s : LoopState) (chunks : List Bytes) (htotal : s.totalLength = 0)
    (hfitting : s.Fitting) (hbound : chunks.flatten.length < 2 ^ 31) :
    ((finish s chunks).Done ∧ (finish s [chunks.flatten]).Done) ∧
      (finish s chunks).sightings = s.sees 0 0 chunks.flatten ∧
      (finish s chunks).sightings = (finish s [chunks.flatten]).sightings ∧
      Run.Always step (fun t => t.sightings = s.sees 0 0 (chunks.flatten.take t.position) ∧
        t.state.totalLength = t.since) (start s chunks) := by
  have hflatten : [chunks.flatten].flatten = chunks.flatten := List.flatten_singleton
  have hchunks := finish_seen chunks hfitting.window htotal hbound
  have hwhole := finish_seen [chunks.flatten] hfitting.window htotal
    (by rwa [hflatten])
  rw [hflatten] at hwhole
  refine ⟨⟨hchunks.1, hwhole.1⟩, hchunks.2, hchunks.2.trans hwhole.2.symm, ?_⟩
  exact (watches_always s chunks hfitting.window htotal hbound).mono fun t h => ⟨h.seen, h.total⟩

/-- An escape that is cut, and a terminator behind it. -/
theorem look_chunks_cut :
    let s : LoopState := ⟨List.replicate 5 nul, 32, 0, text "\r\n.\r\n", text "\r\n.."⟩
    let chunks := [text "aaa\r\n.", text ".\r\nbbbb\r", text "\n.\r\n"]
    ((finish s chunks).Done ∧ (finish s [chunks.flatten]).Done) ∧
      (finish s chunks).sightings = s.sees 0 0 chunks.flatten ∧
      (finish s chunks).sightings = (finish s [chunks.flatten]).sightings ∧
      Run.Always step (fun t => t.sightings = s.sees 0 0 (chunks.flatten.take t.position) ∧
        t.state.totalLength = t.since) (start s chunks) :=
  look_chunks _ _ rfl ⟨rfl, by decide, by decide, by decide⟩ (by decide)

end Looking

end Ervan
