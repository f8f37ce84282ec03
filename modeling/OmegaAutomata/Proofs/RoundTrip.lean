/-
# Documents are read back from their texts

Nothing is lost in the formats of documents, options and settings (`Document.lossless_format`,
`Options.lossless_format`, `ExportOptions.lossless_format`), so any codec that follows them reads
back what it writes.  The codecs that are defined for them do follow them
(`Document.codec_follows`, `Options.codec_follows`, `ExportOptions.codec_follows`).
-/

import OmegaAutomata.Json.Options
import OmegaAutomata.Proofs.Automaton.Answers
import OmegaAutomata.Proofs.Degeneralize.Language
import OmegaAutomata.Proofs.Document.Numbers
import OmegaAutomata.Proofs.Json.Formats

namespace OmegaAutomata

open Json

namespace Document

variable {d : Document}

/-! ### Formats -/

theorem StateEntry.lossless_format : StateEntry.format.Lossless :=
  Format.lossless_record (by decide) ⟨(Format.lossless_integer _ _).field _ _,
    (Format.lossless_natural _).field _ _, Format.lossless_bool.field _ _,
    Format.lossless_text.field _ _⟩

theorem lossless_conditions : conditions.Lossless :=
  Format.lossless_record (by decide) ⟨Format.lossless_text.list.field _ _,
    Format.lossless_text.list.field _ _⟩

theorem TransitionEntry.lossless_format : TransitionEntry.format.Lossless :=
  Format.lossless_record (by decide) ⟨(Format.lossless_integer _ _).field _ _,
    (Format.lossless_integer _ _).field _ _, lossless_conditions.field _ _⟩

/-- **A document is described by what it is written as.** -/
theorem lossless_format : format.Lossless :=
  Format.lossless_record (by decide) ⟨StateEntry.lossless_format.list.field _ _,
    TransitionEntry.lossless_format.list.field _ _⟩

/-- A document fits if its numbers are in range. -/
theorem InRange.fits (h : d.InRange) : format.Fits d := by
  have hstates : ∀ e ∈ d.states, StateEntry.format.Fits e := fun e he => by
    simpa [StateEntry.format, Format.record, Format.field, Format.integer, Format.natural,
      Format.bool, Format.text] using ⟨h.id e he, h.counter e he⟩
  have htransitions : ∀ t ∈ d.transitions, TransitionEntry.format.Fits t := fun t ht => by
    simpa [TransitionEntry.format, conditions, Format.record, Format.field, Format.integer,
      Format.list, Format.text] using ⟨h.source t ht, h.target t ht⟩
  simpa [format, Format.record, Format.field, Format.list] using ⟨hstates, htransitions⟩

/-! ### Readers -/

theorem StateEntry.readBy_ofValue? : StateEntry.format.ReadBy StateEntry.ofValue? := by
  intro v e h
  obtain ⟨found, hfound, hfields⟩ := Format.fields?_of_describes h
  obtain _ | ⟨⟨id, rfl, hid⟩, _ | ⟨⟨counter, rfl, hcounter⟩, _ | ⟨⟨accepting, rfl, haccepting⟩,
    _ | ⟨⟨name, rfl, hname⟩, _ | _⟩⟩⟩⟩ := hfields
  have hid' : id? id = some e.id := Format.readBy_integer _ _ _ _ hid
  have hcounter' : counter? counter = some e.counter := Format.readBy_natural _ _ _ hcounter
  rw [ofValue?, show v.fields? ["id", "final", "accepting", "name"] = _ from hfound]
  simp [hid', hcounter', Format.readBy_bool _ _ haccepting, Format.readBy_text _ _ hname]

theorem readBy_conditions? : conditions.ReadBy conditions? := by
  intro v c h
  obtain ⟨found, hfound, hfields⟩ := Format.fields?_of_describes h
  obtain _ | ⟨⟨pos, rfl, hpos⟩, _ | ⟨⟨neg, rfl, hneg⟩, _ | _⟩⟩ := hfields
  rw [conditions?, show v.fields? ["pos", "neg"] = _ from hfound]
  simp [Format.readBy_text.list _ _ hpos, Format.readBy_text.list _ _ hneg]

theorem TransitionEntry.readBy_ofValue? :
    TransitionEntry.format.ReadBy TransitionEntry.ofValue? := by
  intro v t h
  obtain ⟨found, hfound, hfields⟩ := Format.fields?_of_describes h
  obtain _ | ⟨⟨source, rfl, hsource⟩, _ | ⟨⟨target, rfl, htarget⟩, _ | ⟨⟨literals, rfl, hliterals⟩,
    _ | _⟩⟩⟩ := hfields
  have hsource' : id? source = some t.source := Format.readBy_integer _ _ _ _ hsource
  have htarget' : id? target = some t.target := Format.readBy_integer _ _ _ _ htarget
  rw [ofValue?, show v.fields? ["from", "to", "conditions"] = _ from hfound]
  simp [hsource', htarget', readBy_conditions? _ _ hliterals]

theorem readBy_ofValue? : format.ReadBy ofValue? := by
  intro v d h
  obtain ⟨found, hfound, hfields⟩ := Format.fields?_of_describes h
  obtain _ | ⟨⟨states, rfl, hstates⟩, _ | ⟨⟨transitions, rfl, htransitions⟩, _ | _⟩⟩ := hfields
  rw [ofValue?, show v.fields? ["states", "transitions"] = _ from hfound]
  simp [StateEntry.readBy_ofValue?.list _ _ hstates,
    TransitionEntry.readBy_ofValue?.list _ _ htransitions]

/-- **The codec of documents follows their format.** -/
theorem codec_follows : codec.Follows format :=
  Codec.follows_ofReader readBy_ofValue?

end Document

/-- A field with a usual value is read where it stands, and has this value otherwise. -/
theorem Json.Format.ReadBy.orUsual {α β : Type} {f : Format β} {read : Value → Option β}
    (h : f.ReadBy read) {usual : β} {name : String} {get : α → β} {found : Option Value} {x : α}
    (hfound : (f.fieldOr usual name get).Describes found x) :
    Value.orUsual usual read found = some (get x) := by
  cases found with
  | none =>
    have hget : get x = usual := hfound
    rw [hget]
    rfl
  | some v => exact h v (get x) hfound

namespace Options

theorem lossless_format : format.Lossless :=
  Format.lossless_record (by decide) ⟨Format.lossless_bool.fieldOr _ _ _,
    Format.lossless_bool.fieldOr _ _ _, Format.lossless_bool.fieldOr _ _ _⟩

theorem readBy_ofValue? : format.ReadBy ofValue? := by
  intro v o h
  obtain ⟨found, hfound, hfields⟩ := Format.fields?_of_describes h
  obtain _ | ⟨honTheFly, _ | ⟨hsimplify, _ | ⟨hrefine, _ | _⟩⟩⟩ := hfields
  rw [ofValue?, show v.fields? ["on_the_fly", "simplify", "scc_refinement"] = _ from hfound]
  simp [Format.readBy_bool.orUsual honTheFly, Format.readBy_bool.orUsual hsimplify,
    Format.readBy_bool.orUsual hrefine]

/-- **The codec of options follows their format.** -/
theorem codec_follows : codec.Follows format :=
  Codec.follows_ofReader readBy_ofValue?

/-- **Options are read back from their text.** -/
theorem read_write {c : Codec Options} (h : c.Follows format) (l : Layout) (o : Options) :
    c.read (c.write l o) = some o := by
  have hfits : format.Fits o := by simp [format, Format.record, Format.fieldOr, Format.bool]
  exact (h.read_write lossless_format l hfits).1

end Options

namespace ExportOptions

theorem lossless_format : format.Lossless :=
  Format.lossless_record (by decide) (Format.lossless_text.fieldOr _ _ _)

theorem readBy_ofValue? : format.ReadBy ofValue? := by
  intro v o h
  obtain ⟨found, hfound, hfields⟩ := Format.fields?_of_describes h
  obtain _ | ⟨hformula, _ | _⟩ := hfields
  rw [ofValue?, show v.fields? ["formula"] = _ from hfound]
  simp [Format.readBy_text.orUsual hformula]

/-- **The codec of settings follows their format.** -/
theorem codec_follows : codec.Follows format :=
  Codec.follows_ofReader readBy_ofValue?

/-- **Settings are read back from their text.** -/
theorem read_write {c : Codec ExportOptions} (h : c.Follows format) (l : Layout)
    (o : ExportOptions) : c.read (c.write l o) = some o := by
  have hfits : format.Fits o := by simp [format, Format.record, Format.fieldOr, Format.text]
  exact (h.read_write lossless_format l hfits).1

end ExportOptions

/-- **What is written is read back.**  Of the codecs of documents and of settings nothing is used
but that they follow their formats.

Every document whose display ids and counters are 32-bit numbers is read back from its text in both
layouts, whatever the names and the propositions are, and so are all settings of outputs.  The file
that is written for an automaton with such numbers is read back as the document of the automaton.
What is built for a generalized automaton with such numbers has a document, whatever passes ran, so
its file is read back. -/
theorem read_back (documents : Codec Document) (settings : Codec ExportOptions)
    (hdocuments : documents.Follows Document.format)
    (hsettings : settings.Follows ExportOptions.format) :
    (∀ (l : Layout) (d : Document), d.InRange →
      documents.read (documents.write l d) = some d) ∧
    (∀ (l : Layout) (o : ExportOptions), settings.read (settings.write l o) = some o) ∧
    (∀ (b : Automaton) (d : Document), b.Numbered → Document.ofAutomaton b = .ok d →
      documents.read (d.fileText documents) = some d) ∧
    ∀ (g : Generalized) (options : Options) (b : Automaton) (stats : BuildStats)
      (passes : List Automaton.Pass) (c : Automaton), (∀ q, Document.IsId (g.identity q)) →
        Document.IsCounter g.sets → build g options = .ok (b, stats) →
        b.runPasses passes = .ok c →
        ∃ d, Document.ofAutomaton c = .ok d ∧ documents.read (d.fileText documents) = some d := by
  have hdocument (l : Layout) (d : Document) (h : d.InRange) :=
    hdocuments.read_write Document.lossless_format l h.fits
  have hfile (b : Automaton) (d : Document) (hb : b.Numbered)
      (hd : Document.ofAutomaton b = .ok d) : documents.read (d.fileText documents) = some d :=
    (hdocument .indented d (hb.inRange hd)).2
  refine ⟨fun l d h => (hdocument l d h).1, ExportOptions.read_write hsettings, hfile, ?_⟩
  intro g options b stats passes c hg hsets hb hc
  obtain ⟨hwf, -⟩ := build_eq_ok hb
  obtain ⟨d, hd⟩ := (hwf.comesUp (Automaton.comesUp_of_runPasses hc)).1.exists_document
  exact ⟨d, hd, hfile c d (numbered_of_build hg hsets hb hc) hd⟩

/-- A document with numbers at the ends of their ranges, and texts with quotes, backslashes and
control characters. -/
def Document.extreme : Document where
  states := [⟨-2147483648, 4294967295, true, "\"\\\x01"⟩, ⟨2147483647, 0, false, "\n\x7f"⟩]
  transitions := [⟨2147483647, -2147483648, ["\\u0041", "∀"], []⟩]

/-- The codecs of documents and settings read it back in both layouts, settings with such a text,
and the files of an automaton with two acceptance sets as it is built and after a minimization. -/
theorem read_back_extreme :
    (∀ l : Layout, Document.codec.read (Document.codec.write l .extreme) = some .extreme ∧
      ExportOptions.codec.read (ExportOptions.codec.write l ⟨"\t\"p\""⟩) = some ⟨"\t\"p\""⟩) ∧
    ∃ b stats c d e, build .fair ⟨false, true, true⟩ = .ok (b, stats) ∧
      b.runPasses [.minimization true] = .ok c ∧ b.states.length = 5 ∧ c.states.length = 4 ∧
      Document.ofAutomaton b = .ok d ∧ Document.codec.read (d.fileText Document.codec) = some d ∧
      Document.ofAutomaton c = .ok e ∧
        Document.codec.read (e.fileText Document.codec) = some e := by
  obtain ⟨hdocument, hsettings, hfile, hbuilt⟩ :=
    read_back Document.codec ExportOptions.codec Document.codec_follows ExportOptions.codec_follows
  have hrange : Document.extreme.InRange := by
    refine ⟨?_, ?_, ?_, ?_⟩ <;> simp [Document.extreme, Document.IsId, Document.IsCounter,
      Document.leastId, maxDisplayId, Document.maxCounter]
  have hid (q : Nat) : Document.IsId (Generalized.fair.identity q) := by
    match q with
    | 0 | 1 | 2 => exact ⟨by decide, by decide⟩
    | q + 3 =>
      show Document.IsId 0
      exact ⟨by decide, by decide⟩
  have hsets : Document.IsCounter Generalized.fair.sets := by
    show 2 ≤ Document.maxCounter
    decide
  have hrun : (build .fair ⟨false, true, true⟩ >>= fun r => do
      let c ← r.1.runPasses [.minimization true]
      pure (r.1.states.length, c.states.length)) = .ok (5, 4) := by cbv
  obtain ⟨⟨b, stats⟩, hb, hrun⟩ := bind_eq_ok.1 hrun
  obtain ⟨c, hc, hlengths⟩ := bind_eq_ok.1 hrun
  obtain ⟨hfive, hfour⟩ := Prod.mk.inj (Except.ok.inj hlengths)
  have hempty : b.runPasses [] = .ok b := rfl
  have hnumbered : b.Numbered := numbered_of_build hid hsets hb hempty
  obtain ⟨d, hd, -⟩ := hbuilt _ _ _ _ _ _ hid hsets hb hempty
  obtain ⟨e, he, hread⟩ := hbuilt _ _ _ _ _ _ hid hsets hb hc
  exact ⟨fun l => ⟨hdocument l _ hrange, hsettings l _⟩, b, stats, c, d, e, hb, hc, hfive, hfour,
    hd, hfile b d hnumbered hd, he, hread⟩

end OmegaAutomata
