/-
The two outputs of a run agree.

When a run succeeds, both files hold one and the same list of symbols: the listing is
loaded as it, the table is read as it, field by field and in the same order, and the
counters are about it. The list is the catalogue of what stands in the lines of the
input as it was when the run began, also where an output replaces the input later.

Nothing new is proved here about any of the stages. The input decides the text
(`endsAt_run`), the text decides the symbols, and each format is read back by its own
law (`load_print`, `read_print`), so what is left to show is that the file written
last does not touch the one before it.
-/
import SymbolLog.Proofs.Finding
import SymbolLog.Proofs.Job.Stages
import SymbolLog.Proofs.Listing.RoundTrip
import SymbolLog.Proofs.Symbol.Catalogue
import SymbolLog.Proofs.Symbol.Pattern
import SymbolLog.Proofs.Table.Reader
import Mathlib

set_option autoImplicit false

namespace SymbolLog

/-! ## The symbols of a text -/

theorem Text.isCanonical_of_mem_symbols {t : Text} {s : Symbol} (h : s ∈ t.symbols) :
    s.IsCanonical := by
  obtain ⟨line, -, hline⟩ := List.mem_filterMap.1 h
  exact Finding.isCanonical_of_ofLine hline

/-- The catalogue of canonical symbols is sorted by the numbers of their ids. -/
theorem sorted_catalogue_digits {symbols : List Symbol} (h : ∀ s ∈ symbols, s.IsCanonical) :
    (catalogue symbols).Pairwise fun a b =>
      Json.Number.digitsValue a.id ≤ Json.Number.digitsValue b.id := by
  have hmem := (keptFrom_catalogue symbols).mem
  refine List.Pairwise.imp_of_mem ?_ (sorted_catalogue symbols)
  intro a b ha hb hab
  have ha' := h a (hmem a ha)
  have hb' := h b (hmem b hb)
  exact Symbol.digitsValue_le_of_notAfter ha'.id_ne_nil hb'.id_ne_nil ha'.id_digits hb'.id_digits
    hab

/-! ## The counters -/

theorem tally_of_text (t : Text) :
    let tally := (Collection.empty.add ⟨Survey.findingsFrom 0 t.lines, none⟩).close.tally
    tally.matched = t.symbols.length ∧ tally.unique = (catalogue t.symbols).length ∧
      tally.discarded = t.symbols.length - (catalogue t.symbols).length := by
  have hmatched := Collection.matched_add .empty ⟨Survey.findingsFrom 0 t.lines, none⟩
  rw [Survey.symbols_findingsFrom] at hmatched
  refine ⟨hmatched.trans (Nat.zero_add _), ?_, ?_⟩
  · show (catalogue (Collection.add .empty _).symbols).length = _
    rw [collected_of_text]
  · show (Collection.add .empty _).symbols.length
      - (catalogue (Collection.add .empty _).symbols).length = _
    rw [collected_of_text]

namespace Job

/-! ## The whole run -/

/-- A successful run whose outputs are different files leaves one list in both of them:
the catalogue of the symbols that the lines of the input announce. The listing is loaded
as that list and the table is read as its columns and its records; the list has one
symbol for each id, in the order of the ids as numbers; and the counters are about it. -/
theorem outputs_agree {job : Job} {fs : FileSystem} {tally : Tally}
    (hrun : (job.run FileSystem.store fs).1.result = .ok tally)
    (hpaths : ∀ place, fs.createAt job.jsonOutput = .ok place →
      fs.createAt job.csvOutput ≠ .ok place) :
    ∃ t : Text, fs.contents? job.input = some (Utf8.encode t) ∧
      (∃ json, (job.run FileSystem.store fs).2.contents? job.jsonOutput
          = some (Utf8.encode json) ∧ Listing.load json = .ok (catalogue t.symbols)) ∧
      (∃ csv, (job.run FileSystem.store fs).2.contents? job.csvOutput
          = some (Utf8.encode csv) ∧
        Table.read .returnFeed csv
          = some (["ID".toList, "Name".toList, "Description".toList]
            :: (catalogue t.symbols).map fun s => [s.id, s.name, s.description])) ∧
      (∀ s ∈ catalogue t.symbols, s.id ≠ [] ∧ (∀ c ∈ s.id, isDigit c = true) ∧
        s.name.IsTrimmed ∧ s.description.IsTrimmed) ∧
      ((catalogue t.symbols).map Symbol.id).Nodup ∧
      ((catalogue t.symbols).Pairwise fun a b =>
        Json.Number.digitsValue a.id ≤ Json.Number.digitsValue b.id) ∧
      tally.matched = t.symbols.length ∧ tally.unique = (catalogue t.symbols).length ∧
      tally.discarded + tally.unique = tally.matched := by
  obtain ⟨stage, hends⟩ := endsAt_run job fs
  rw [hrun] at hends
  obtain ⟨t, jsonPlace, csvPlace, hopen, hjson, hcsv, htally, hafter⟩ := exists_places_of_ok hends
  -- Different paths may create one file; these do not.
  have hne : jsonPlace ≠ csvPlace := by
    rintro rfl
    exact hpaths jsonPlace hjson hcsv
  obtain ⟨hfoundCsv, hfound⟩ := contents?_after hjson hcsv hafter
  have hfoundJson := hfound hne
  have hkept := keptFrom_catalogue t.symbols
  have hcanonical : ∀ s ∈ t.symbols, s.IsCanonical := fun s => Text.isCanonical_of_mem_symbols
  refine ⟨t, FileSystem.contents?_of_openRead hopen, ⟨_, hfoundJson, Listing.load_print _⟩,
    ⟨_, hfoundCsv, Table.read_print _ _⟩, ?_, hkept.nodup, sorted_catalogue_digits hcanonical,
    ?_⟩
  · intro s hs
    have h := hcanonical s (hkept.mem s hs)
    exact ⟨h.id_ne_nil, h.id_digits, h.name_trimmed, h.description_trimmed⟩
  · obtain ⟨hmatched, hunique, hdiscarded⟩ := tally_of_text t
    rw [← htally] at hmatched hunique hdiscarded
    have hlength := hkept.length
    exact ⟨hmatched, hunique, by omega⟩

/-- Two lines that announce one id, where the second counts. -/
def repeatedLog : Text := "Symbol ID: 7 Name: a Desc: b\rSymbol ID: 7 Name: c, Desc:\n".toList

def repeatedLogDisk : FileSystem :=
  FileSystem.empty.addFile (FileSystem.placeOf standard.input) (Utf8.encode repeatedLog)

/-- The table of a log in which an id comes again. -/
theorem outputs_agree_repeatedLog :
    (standard.run FileSystem.store repeatedLogDisk).1.result = .ok ⟨2, 0, 0, 2, 0, 0, 2, 1, 1⟩ ∧
      ∃ t : Text, repeatedLogDisk.contents? standard.input = some (Utf8.encode t) ∧
        ∃ csv, (standard.run FileSystem.store repeatedLogDisk).2.contents? standard.csvOutput
            = some (Utf8.encode csv) ∧
          Table.read .returnFeed csv
            = some (["ID".toList, "Name".toList, "Description".toList]
              :: (catalogue t.symbols).map fun s => [s.id, s.name, s.description]) := by
  have hrun : (standard.run FileSystem.store repeatedLogDisk).1.result
      = .ok ⟨2, 0, 0, 2, 0, 0, 2, 1, 1⟩ := by cbv
  have hpaths : ∀ place, repeatedLogDisk.createAt standard.jsonOutput = .ok place →
      repeatedLogDisk.createAt standard.csvOutput ≠ .ok place := by
    have hjson : repeatedLogDisk.createAt standard.jsonOutput
        = .ok (FileSystem.placeOf standard.jsonOutput) := rfl
    have hcsv : repeatedLogDisk.createAt standard.csvOutput
        = .ok (FileSystem.placeOf standard.csvOutput) := rfl
    intro place hplace
    rw [hjson] at hplace
    rw [hcsv, ← hplace]
    decide
  obtain ⟨t, hinput, -, hcsv, -⟩ := outputs_agree hrun hpaths
  exact ⟨hrun, t, hinput, hcsv⟩

end Job

end SymbolLog
