import Curarium.Works.Plain

/-!
# The tokens of the treemap statement

The treemap statement has a literal for the property and a place for the `where` clause. Its fixed
texts are a `Frame`: they lead into the literal and out of it and leave the clause to be read on
its own, so the tokens of the statement are theirs with those of the clause between them
(`Frame.lex_eq`).
-/

namespace Curarium
namespace WorksIndex

open Sql Transducer

/-! ### A statement around a clause -/

/-- The fixed texts of a statement around a literal and a clause: the first leads into the literal,
the second out of it, and the third is read on its own after the clause. -/
structure Frame (head body tail : Text) where
  before : List Token
  between : List Token
  after : List Token
  ending : Mode
  feed_head : feed step .idle head = (.str .standard [], before)
  feed_body : ∀ p, feed step (.str .standard p) body = (.idle, strToken .standard p :: between)
  reads_tail : ∀ s, Ended s → Reads step flush s tail ending after

section Frame

variable {head body tail : Text} (F : Frame head body tail)

include F in
theorem Frame.inPlace_iff (property : Text) (c : Clause) :
    InPlace .idle ([.fixed head, .literal (Rails.quoteString property), .fixed body]
      ++ c.parts ++ [.fixed tail]) ↔ InPlace .idle c.parts := by
  have htail : ∀ s, InPlace s [.fixed tail] := fun _ => trivial
  rw [inPlace_append, List.cons_append, List.cons_append, List.cons_append, List.nil_append,
    InPlace, F.feed_head, inPlace_literal]
  constructor
  · rintro ⟨⟨p, -, h⟩, -⟩
    rwa [InPlace, F.feed_body] at h
  · intro h
    refine ⟨⟨property, enclosed_quoteString property, ?_⟩, htail _⟩
    rwa [InPlace, F.feed_body]

theorem Frame.lex_eq {c d : Clause} (h : c.StandsFor d) (property : Text) :
    lex (head ++ Rails.quoteString property ++ body ++ c.text ++ tail)
      = F.before ++ strToken .standard property :: F.between ++ d.tokens ++ F.after := by
  have hbefore := feed_append_of_eq _ (feed_append_of_eq _ F.feed_head
    (feed_enclosed (enclosed_quoteString property) [])) (F.feed_body _)
  rw [List.nil_append, List.append_nil] at hbefore
  obtain ⟨s, hs, hclause⟩ := reads_clause h
  exact (((Reads.of_feed hbefore rfl rfl).append hclause).append (F.reads_tail s hs)).output_eq rfl

end Frame

/-! ### The treemap statement -/

def treemapBefore : List Token :=
  [.word "select", .word "values", .word "as", .word "parsed", .punct ',',
    .word "count", .punct '(', .word "values", .punct ')', .word "as", .word "id",
    .word "from", .punct '(', .word "select", .word "trim", .punct '(', .word "both", .word "from",
    .word "unnest", .punct '(', .word "string_to_array", .punct '(',
    .word "regexp_replace", .punct '(', .word "regexp_replace", .punct '(',
    .word "lower", .punct '(', .word "parsed", .op "->"]

def treemapBetween : List Token :=
  [.punct ')', .punct ',', .str .standard "\", \"", .punct ',', .str .standard "%SPLIT%", .punct ',',
    .str .standard "g", .punct ')', .punct ',', .str .standard "[\\[\\]\"]", .punct ',',
    .str .standard "", .punct ',', .str .standard "g", .punct ')', .punct ',',
    .str .standard "%SPLIT%", .punct ')', .punct ')', .punct ')', .word "as", .word "values",
    .word "from", .quoted "works", .word "where"]

def treemapAfter : List Token :=
  [.punct ')', .word "as", .word "subquery", .word "group", .word "by", .word "values"]

theorem feed_treemapHead : feed step .idle treemapHead = (.str .standard [], treemapBefore) := by
  decide +kernel

/-- The text between the two places closes the literal of the property; what comes after that does
not depend on it. -/
theorem feed_treemapBody (p : Text) :
    feed step (.str .standard p) treemapBody
      = (.idle, strToken .standard p :: treemapBetween) := by
  have hsplit : treemapBody = "')".toList ++ treemapBody.drop 2 := by decide +kernel
  have hclose : feed step (.str .standard p) "')".toList
      = (.idle, [strToken .standard p, .punct ')']) := rfl
  have hrest : feed step .idle (treemapBody.drop 2) = (.idle, treemapBetween.tail) := by
    decide +kernel
  have hall := feed_append_of_eq _ hclose hrest
  rwa [← hsplit] at hall

theorem reads_treemapTail {s : Mode} (hs : Ended s) :
    Reads step flush s treemapTail (.word "values".toList) treemapAfter := by
  obtain (rfl | ⟨ds, rfl⟩) | ⟨acc, rfl⟩ := hs
  · exact ⟨rfl, rfl⟩
  · exact ⟨rfl, rfl⟩
  · exact ⟨rfl, rfl⟩

def treemapFrame : Frame treemapHead treemapBody treemapTail where
  before := treemapBefore
  between := treemapBetween
  after := treemapAfter
  ending := .word "values".toList
  feed_head := feed_treemapHead
  feed_body := feed_treemapBody
  reads_tail _ := reads_treemapTail

end WorksIndex
end Curarium
