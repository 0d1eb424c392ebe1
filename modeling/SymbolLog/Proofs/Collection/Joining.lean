/-
Several streams are one.

Two logs are joined by writing one after the other, with a line feed between them where
the first is neither empty nor ended by one. A log is cut at line feeds before anything
else happens to it, so the chunks of the joined log are those of the two
(`cutAfter_joinLogs`). What a chunk yields depends on nothing but its bytes, and that
settles the cases that look dangerous: a carriage return at the end of the first log is
dropped from its chunk whether or not a line feed follows, and whatever is malformed in the
second log is reported by its place in its own chunk.

Lines do get other numbers in the joined log. A collection does not see them.
-/
import SymbolLog.Proofs.Collection.Intakes
import Mathlib

set_option autoImplicit false

namespace SymbolLog

/-! ## Joined logs -/

/-- One log after the other, with a line feed between them if the first needs it. -/
def joinLogs (x y : Bytes) : Bytes :=
  if x = [] ∨ x.getLast? = some Source.lineFeed then x ++ y else x ++ Source.lineFeed :: y

/-- Between joined logs there is a line feed, so no chunk extends over the seam. -/
theorem cutAfter_joinLogs (x y : Bytes) :
    cutAfter Source.lineFeed (joinLogs x y)
      = cutAfter Source.lineFeed x ++ cutAfter Source.lineFeed y := by
  rw [joinLogs]
  split
  · next hended => exact cutAfter_append_of_ended hended y
  · next hopen =>
    rw [not_or] at hopen
    exact cutAfter_append_cons_of_not_ended hopen.1 hopen.2 y

/-- A stream that gives some bytes and never fails. -/
def Intake.log (bytes : Bytes) : Intake := .stream (.ofBytes bytes)

/-- A log that is read to its end hands on to the one that is joined to it. -/
theorem Intake.log_joinLogs {x : Bytes} (hx : (Intake.log x).failure? = none) (y : Bytes) :
    (Intake.log (joinLogs x y)).lines = (Intake.log x).lines ++ (Intake.log y).lines ∧
      (Intake.log (joinLogs x y)).failure? = (Intake.log y).failure? := by
  simp only [Intake.log, Intake.lines, Intake.failure?, Intake.opened, readings_ofBytes] at hx ⊢
  have hfirst : ∀ y ∈ (cutAfter Source.lineFeed x).map fun chunk =>
      Source.Piece.yield ⟨chunk, none⟩, Reading.yieldedFault? y = none := by
    rw [Option.map_eq_none_iff, Reading.firstFault?_ofYields] at hx
    exact List.findSome?_eq_none_iff.1 hx
  obtain ⟨hhandled, hfault⟩ := Reading.handled_ofYields_append hfirst
    ((cutAfter Source.lineFeed y).map fun chunk => Source.Piece.yield ⟨chunk, none⟩) 0
  rw [cutAfter_joinLogs, List.map_append, hhandled, hfault]
  exact ⟨rfl, rfl⟩

/-- So does every log but the last, which may fail. -/
theorem Intake.log_foldr_joinLogs {first : List Bytes}
    (hfirst : ∀ x ∈ first, (Intake.log x).failure? = none) (last : Bytes) :
    (Intake.log (first.foldr joinLogs last)).lines
        = (first ++ [last]).flatMap (fun x => (Intake.log x).lines) ∧
      (Intake.log (first.foldr joinLogs last)).failure? = (Intake.log last).failure? := by
  induction first with
  | nil => simp
  | cons x first ih =>
    obtain ⟨hx, hrest⟩ := List.forall_mem_cons.1 hfirst
    obtain ⟨hlines, hfailure⟩ := ih hrest
    obtain ⟨hlines', hfailure'⟩ := Intake.log_joinLogs hx (first.foldr joinLogs last)
    rw [List.foldr_cons, hlines', hfailure', hlines, hfailure]
    simp

namespace Collection

/-- **Several streams are one.** Taking in a log that does not fail and then another one is
taking in the two as one log, with the same symbols, the same counters and the same failure
if the second fails. So it is for any number of logs of which only the last may fail. -/
theorem absorb_joined (c : Collection) :
    (∀ x y : Bytes, (c.absorb (.ofSource (.ofBytes x))).2 = none →
      (c.absorb (.ofSource (.ofBytes x))).1.absorb (.ofSource (.ofBytes y))
        = c.absorb (.ofSource (.ofBytes (joinLogs x y)))) ∧
      ∀ (first : List Bytes) (last : Bytes),
        (∀ failure ∈ (c.takeAll (first.map Intake.log)).2, failure = none) →
        let whole := c.absorb (.ofSource (.ofBytes (first.foldr joinLogs last)))
        c.takeAll ((first ++ [last]).map Intake.log)
          = (whole.1, first.map (fun _ => none) ++ [whole.2]) := by
  have habsorb (c : Collection) (x : Bytes) : c.absorb (.ofSource (.ofBytes x))
      = (c.addLines (Intake.log x).lines, (Intake.log x).failure?) := takeIn_eq c (.log x)
  refine ⟨?_, ?_⟩
  · intro x y hx
    rw [habsorb] at hx
    obtain ⟨hlines, hfailure⟩ := Intake.log_joinLogs hx y
    rw [habsorb, habsorb, habsorb, hlines, hfailure, addLines_append]
  · intro first last hfirst whole
    rw [takeAll_eq, List.map_map] at hfirst
    have hfirst' : ∀ x ∈ first, (Intake.log x).failure? = none := fun x hx =>
      hfirst _ (List.mem_map_of_mem hx)
    obtain ⟨hlines, hfailure⟩ := Intake.log_foldr_joinLogs hfirst' last
    -- Both sides come to the same lines, and only the last log can have a failure.
    have hwhole : whole = (c.addLines ((first ++ [last]).flatMap fun x => (Intake.log x).lines),
        (Intake.log last).failure?) := by
      show c.absorb _ = _
      rw [habsorb, hlines, hfailure]
    have hnone : first.map (fun x => (Intake.log x).failure?) = first.map fun _ => none :=
      List.map_congr_left hfirst'
    rw [hwhole, takeAll_eq, List.flatMap_map, List.map_map, List.map_append, ← hnone]
    rfl

/-- A log that ends in a carriage return. -/
def returnLog : Bytes := Utf8.encode "Symbol ID: 7 Name: a Desc: b\r".toList

/-- A log that is malformed in its second chunk. -/
def malformedLog : Bytes := Utf8.encode "Symbol ID: 8 Name: c Desc:\n".toList ++ [0x61, 0xFF]

/-- A log that ends with a carriage return, an empty one and a malformed one. -/
theorem absorb_joined_returnLog :
    (empty.absorb (.ofSource (.ofBytes returnLog))).2 = none ∧
      (empty.absorb (.ofSource (.ofBytes returnLog))).1.absorb (.ofSource (.ofBytes malformedLog))
        = empty.absorb (.ofSource (.ofBytes (joinLogs returnLog malformedLog))) ∧
      empty.takeAll [.log returnLog, .log [], .log malformedLog]
        = ((empty.absorb (.ofSource (.ofBytes
              (joinLogs returnLog (joinLogs [] malformedLog))))).1,
            [none, none, (empty.absorb (.ofSource (.ofBytes
              (joinLogs returnLog (joinLogs [] malformedLog))))).2]) := by
  have hreturn : (empty.absorb (.ofSource (.ofBytes returnLog))).2 = none := by cbv
  have hfirst : (empty.takeAll [.log returnLog, .log []]).2 = [none, none] := by cbv
  refine ⟨hreturn, (absorb_joined empty).1 _ _ hreturn,
    (absorb_joined empty).2 [returnLog, []] malformedLog ?_⟩
  intro failure hfailure
  rw [List.map_cons, List.map_cons, List.map_nil, hfirst] at hfailure
  simpa using hfailure

end Collection

end SymbolLog
