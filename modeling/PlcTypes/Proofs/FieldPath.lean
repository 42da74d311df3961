import PlcTypes.FieldPath
import PlcTypes.Proofs.Name
import PlcTypes.Proofs.Text.Quoted

/-! # Paths as text

    Joining the segments of a path and cutting a text at the separators are
    not inverse on their own.  Cutting never gives a segment that holds the
    separator, and the empty text, which is cut into one empty segment, is
    taken for the root.  So two kinds of paths are lost on the way: those with
    the separator in a segment, and the path of one empty segment.

    All others are read back from their text, and every text is the text of
    the path that is read from it.  The same is true of paths that are kept in
    documents, if a document gives back the string that it keeps.  Quoted texts
    do. -/

namespace PlcTypes.FieldPath

variable {p : FieldPath} {separator : Char}

/-- Whether a path can be told from its text: the separator stands only
    between its segments, and it is not the path of one empty segment, which
    has the text of the root. -/
structure IsTold (p : FieldPath) (separator : Char) : Prop where
  free : ∀ s ∈ p.segments, separator ∉ s.toList
  notBlank : p.segments ≠ [""]

/-- Only the root and the path of one empty segment have no text. -/
theorem render_eq_empty_iff :
    p.render separator = "" ↔ p.segments = [] ∨ p.segments = [""] := by
  rw [← String.toList_inj, render, String.toList_intercalate, String.toList_singleton]
  show List.intercalate [separator] (p.segments.map String.toList) = [] ↔ _
  cases hsegments : p.segments with
  | nil => simp
  | cons s rest =>
      cases rest with
      | nil =>
          rw [List.map_singleton, List.intercalate_singleton, String.toList_eq_nil_iff]
          simp
      | cons s' rest =>
          -- a separator stands between the first two segments
          rw [List.map_cons, List.map_cons, List.intercalate_cons_cons]
          simp

/-! ## Reading a path from a text -/

theorem parse_empty : parse "" separator = root := rfl

theorem segments_parse {text : String} (h : text ≠ "") :
    (parse text separator).segments = (text.toList.splitOn separator).map String.ofList := by
  rw [parse, if_neg (by simpa using h)]

/-- What is read from a text can be told from its text. -/
theorem isTold_parse (text : String) (separator : Char) :
    (parse text separator).IsTold separator := by
  by_cases htext : text = ""
  · rw [htext, parse_empty]
    exact ⟨nofun, nofun⟩
  · have hsegments : (parse text separator).segments
        = (text.toList.splitOn separator).map String.ofList := segments_parse htext
    constructor
    · intro s hs
      rw [hsegments] at hs
      obtain ⟨piece, hpiece, rfl⟩ := List.mem_map.mp hs
      intro hseparator
      rw [String.toList_ofList] at hseparator
      have hfalse := eq_false_of_mem_splitOnP piece hpiece separator hseparator
      rw [beq_self_eq_true] at hfalse
      exact nomatch hfalse
    · intro hblank
      -- cut into one empty piece, the text is empty
      have hpieces : text.toList.splitOn separator = [[]] := by
        have htoList := congrArg (List.map String.toList) (hsegments.symm.trans hblank)
        rw [List.map_map] at htoList
        simpa using htoList
      have hjoined : [separator].intercalate (text.toList.splitOn separator) = text.toList :=
        List.intercalate_splitOn separator
      rw [hpieces, List.intercalate_singleton] at hjoined
      exact htext (String.toList_eq_nil_iff.mp hjoined.symm)

/-- Every text is the text of the path that is read from it. -/
theorem render_parse (text : String) (separator : Char) :
    (parse text separator).render separator = text := by
  by_cases htext : text = ""
  · rw [htext, parse_empty]
    rfl
  · have hpieces : (text.toList.splitOn separator).map (String.toList ∘ String.ofList)
        = text.toList.splitOn separator := by
      simp
    rw [← String.toList_inj, render, segments_parse htext, String.toList_intercalate,
      String.toList_singleton, List.map_map, hpieces, List.intercalate_splitOn]

/-- A path that can be told from its text is read back from it. -/
theorem IsTold.parse_render (h : p.IsTold separator) :
    parse (p.render separator) separator = p := by
  obtain ⟨segments⟩ := p
  by_cases htext : render ⟨segments⟩ separator = ""
  · obtain rfl : segments = [] := (render_eq_empty_iff.mp htext).resolve_right h.notBlank
    rfl
  · have hne : segments.map String.toList ≠ [] := fun hnil =>
      htext (render_eq_empty_iff.mpr (Or.inl (List.map_eq_nil_iff.mp hnil)))
    have hfree : ∀ piece ∈ segments.map String.toList, separator ∉ piece := by
      intro piece hpiece
      obtain ⟨s, hs, rfl⟩ := List.mem_map.mp hpiece
      exact h.free s hs
    have hcut : (render ⟨segments⟩ separator).toList.splitOn separator
        = segments.map String.toList := by
      rw [render, String.toList_intercalate, String.toList_singleton]
      exact List.splitOn_intercalate separator hfree hne
    refine congrArg FieldPath.mk ((segments_parse htext).trans ?_)
    rw [hcut, List.map_map]
    simp

/-- The paths that are read back from their text are those that can be told
    from it. -/
theorem parse_render_iff : parse (p.render separator) separator = p ↔ p.IsTold separator := by
  constructor
  · intro h
    rw [← h]
    exact isTold_parse _ separator
  · exact IsTold.parse_render

/-- A path is read back if its segments are not empty and do not hold the
    separator. -/
theorem parse_render (h : ∀ s ∈ p.segments, s ≠ "" ∧ separator ∉ s.toList) :
    parse (p.render separator) separator = p := by
  refine IsTold.parse_render ⟨fun s hs => (h s hs).2, fun hblank => ?_⟩
  refine (h "" ?_).1 rfl
  rw [hblank]
  exact List.mem_singleton_self ""

/-! ## Paths in documents -/

section Documents

variable {Document : Type} (codec : Text.Codec Document)

/-- A path that a document keeps is what its text is read as, if documents give
    back the strings that they keep. -/
theorem deserialize?_serialize
    (hcodec : ∀ text, codec.decode (codec.encode text) = some text) (p : FieldPath) :
    deserialize? codec (p.serialize codec) = some (parse (toString p) dot) := by
  rw [deserialize?, serialize, hcodec, Option.map_some]

/-- What is read from a document and kept again is kept as the string of the
    document is. -/
theorem map_serialize_deserialize? (document : Document) :
    (deserialize? codec document).map (serialize codec)
      = (codec.decode document).map codec.encode := by
  rw [deserialize?, Option.map_map]
  refine congrArg (Option.map · _) (funext fun text => ?_)
  exact congrArg codec.encode (render_parse text dot)

end Documents

/-- **A PATH AND ITS TEXT**: whatever separates the segments, the paths that are
    read back from their text are those whose segments are free of the separator,
    the path of one empty segment apart; and every text is the text of the path
    that is read from it.  So it is with dots between the segments, and with
    documents of every kind that give back the strings that they keep.  What is
    read from a document and kept again is kept as the string of the document is,
    if it holds one. -/
theorem text_laws :
    (∀ (p : FieldPath) (separator : Char), parse (p.render separator) separator = p ↔
        (∀ s ∈ p.segments, separator ∉ s.toList) ∧ p.segments ≠ [""]) ∧
      (∀ (text : String) (separator : Char), (parse text separator).render separator = text) ∧
      (∀ p : FieldPath, parse (toString p) dot = p ↔
        (∀ s ∈ p.segments, dot ∉ s.toList) ∧ p.segments ≠ [""]) ∧
      (∀ text : String, toString (parse text dot) = text) ∧
      ∀ (Document : Type) (codec : Text.Codec Document),
        (∀ text, codec.decode (codec.encode text) = some text) →
          (∀ p : FieldPath, deserialize? codec (p.serialize codec) = some p ↔
              (∀ s ∈ p.segments, dot ∉ s.toList) ∧ p.segments ≠ [""]) ∧
            (∀ text, (deserialize? codec (codec.encode text)).map (serialize codec)
              = some (codec.encode text)) ∧
            ∀ document, (deserialize? codec document).map (serialize codec)
              = (codec.decode document).map codec.encode := by
  have htold : ∀ (p : FieldPath) (separator : Char), parse (p.render separator) separator = p ↔
      (∀ s ∈ p.segments, separator ∉ s.toList) ∧ p.segments ≠ [""] := by
    intro p separator
    rw [parse_render_iff]
    exact ⟨fun h => ⟨h.free, h.notBlank⟩, fun h => ⟨h.1, h.2⟩⟩
  refine ⟨htold, render_parse, fun p => htold p dot, fun text => render_parse text dot, ?_⟩
  intro Document codec hcodec
  refine ⟨fun p => ?_, fun text => ?_, map_serialize_deserialize? codec⟩
  · rw [deserialize?_serialize codec hcodec, Option.some_inj]
    exact htold p dot
  · rw [map_serialize_deserialize?, hcodec, Option.map_some]

/-- Quoted texts give back the strings that they keep.  A quote in a segment
    does no harm, and a dot does. -/
theorem text_laws_quoted :
    (∀ text, Text.Quoted.codec.decode (Text.Quoted.codec.encode text) = some text) ∧
      toJson ⟨["set", "a\"b", "-1"]⟩ = "\"set.a\\\"b.-1\"" ∧
      ofJson? (toJson ⟨["set", "a\"b", "-1"]⟩) = some ⟨["set", "a\"b", "-1"]⟩ ∧
      ofJson? (toJson ⟨["set.a", "-1"]⟩) ≠ some ⟨["set.a", "-1"]⟩ := by
  have hcodec := Text.Quoted.codec_decode_encode
  have hread := (text_laws.2.2.2.2 String Text.Quoted.codec hcodec).1
  refine ⟨hcodec, by decide, (hread ⟨["set", "a\"b", "-1"]⟩).mpr (by decide), fun h => ?_⟩
  exact (hread ⟨["set.a", "-1"]⟩).mp h |>.1 "set.a" (by decide) (by decide)

/-- The path of one empty segment and the root have the same text. -/
example : render ⟨[""]⟩ '/' = "" ∧ parse "" '/' = root ∧
    parse "/a/" '/' = ⟨["", "a", ""]⟩ := by decide

end PlcTypes.FieldPath
