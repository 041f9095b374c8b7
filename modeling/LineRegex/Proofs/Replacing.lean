/-
LineRegex.Proofs.Replacing — replacing rewrites the matches and nothing else.

The matches that a search finds, with offsets into the whole text, stand one
behind the other and inside the text. So the text falls into the matches and
the gaps between them, and replacing keeps every gap, terminators and all.

  §1 Order        — the matches of a search stand one behind the other.
  §2 Rewriting    — the gaps of a text with something else in between.
  §3 Replacement
-/
import LineRegex.Proofs.Captures
import LineRegex.Proofs.Increments
import LineRegex.Proofs.Leftmost
import LineRegex.Replace

namespace LineRegex

/-! ## §1 Order -/

/-- The matches stand in the text one behind the other. -/
structure InOrder (text : Text) (ms : List Match) : Prop where
  ordered : ms.Pairwise fun m n => m.whole.stop ≤ n.whole.start
  inside : ∀ m ∈ ms, m.subject = text ∧ m.whole.start ≤ m.whole.stop ∧ m.whole.stop ≤ text.size

theorem InOrder.sublist {text : Text} {ms ms' : List Match} (h : InOrder text ms)
    (hsub : ms'.Sublist ms) : InOrder text ms' :=
  ⟨h.ordered.sublist hsub, fun m hm => h.inside m (hsub.subset hm)⟩

namespace Pattern

variable {p : Pattern} {budget : Nat} {text : Text}

theorem bounds_of_mem_finds {f : Find} (h : f ∈ p.finds budget text) :
    f.line.stop ≤ text.size ∧ f.start ≤ f.stop ∧ f.stop ≤ f.line.units.size := by
  obtain ⟨hline, hfound⟩ := mem_finds.mp h
  have hm := (matchAt_of_mem_lineMatches hfound).2
  exact ⟨stop_le_of_mem_lines hline, stop_of_attempt hm⟩

/-- With offsets into the text, each find ends before the next one begins. -/
theorem pairwise_located_finds :
    ((p.finds budget text).map (·.located .absolute text)).Pairwise
      fun m n => m.whole.stop ≤ n.whole.start := by
  rw [finds, List.map_flatMap, List.pairwise_flatMap]
  constructor
  · intro line _
    rw [List.map_map, List.pairwise_map]
    refine pairwise_lineMatches.imp fun {m n} hmn => ?_
    show m.whole.stop + line.start ≤ n.whole.start + line.start
    omega
  · refine (pairwise_stop_linesFrom 0 0 _).imp_of_mem fun {line line'} hline hline' hstop => ?_
    intro m hm n hn
    obtain ⟨f, hf, rfl⟩ := List.mem_map.mp hm
    obtain ⟨g, hg, rfl⟩ := List.mem_map.mp hn
    obtain ⟨found, hfound, rfl⟩ := List.mem_map.mp hf
    obtain ⟨found', -, rfl⟩ := List.mem_map.mp hg
    have hbound := (bounds_of_mem_finds (mem_finds (f := ⟨line, found⟩).mpr ⟨hline, hfound⟩)).2.2
    show found.whole.stop + line.start ≤ found'.whole.start + line'.start
    simp only [Line.stop, Find.stop] at hstop hbound
    omega

theorem inOrder_located_finds (p : Pattern) (budget : Nat) (text : Text) :
    InOrder text ((p.finds budget text).map (·.located .absolute text)) := by
  refine ⟨pairwise_located_finds, ?_⟩
  intro m hm
  obtain ⟨f, hf, rfl⟩ := List.mem_map.mp hm
  have hbounds := bounds_of_mem_finds hf
  simp only [Line.stop, Find.start, Find.stop] at hbounds
  refine ⟨rfl, ?_⟩
  show f.found.whole.start + f.line.start ≤ f.found.whole.stop + f.line.start ∧
    f.found.whole.stop + f.line.start ≤ text.size
  omega

/-- With offsets into the text, the matches of a search stand one behind the
other, whatever its policy. -/
theorem inOrder_findAll (p : Pattern) (text : Text) (o : FindOptions)
    (ho : o.offsets = .absolute) : InOrder text (p.findAll text o).2 := by
  have hevents := filterMap_match?_events p o text
  rw [ho] at hevents
  rw [findAll_eq_events]
  refine (inOrder_located_finds p o.budget text).sublist ?_
  rw [← hevents]
  exact (o.onExceeded.reached_sublist _).filterMap _

end Pattern

/-! ## §2 Rewriting -/

/-- `t[i, m₁.start) f(m₁) t[m₁.stop, m₂.start) f(m₂) … t[mⱼ.stop, |t|)` -/
def rewrittenFrom (text : Text) (f : Match → Text) (i : Nat) : List Match → Text
  | [] => text.extract i text.size
  | m :: ms => text.extract i m.whole.start ++ f m ++ rewrittenFrom text f m.whole.stop ms

theorem spliceFrom_eq (text : Text) (template : List CodeUnit) (out : Text) (copied : Nat)
    (ms : List Match) :
    spliceFrom text template out copied ms =
      out ++ rewrittenFrom text (fun m => (expand m template).toArray) copied ms := by
  induction ms generalizing out copied with
  | nil => rfl
  | cons m ms ih => rw [spliceFrom, ih, rewrittenFrom, Array.append_assoc, Array.append_assoc,
      Array.append_assoc]

theorem extract_append {text : Text} {i j k : Nat} (hij : i ≤ j) (hjk : j ≤ k) :
    text.extract i j ++ text.extract j k = text.extract i k := by
  rw [Array.extract_append_extract, min_eq_left hij, max_eq_right hjk]

/-- Matches that are rewritten to their own text leave the text as it is. -/
theorem rewrittenFrom_text {text : Text} {ms : List Match} (h : InOrder text ms) {i : Nat}
    (hi : i ≤ text.size) (hfirst : ∀ m ∈ ms, i ≤ m.whole.start) :
    rewrittenFrom text (·.text) i ms = text.extract i text.size := by
  induction ms generalizing i with
  | nil => rfl
  | cons m ms ih =>
    obtain ⟨hsubject, hspan, hstop⟩ := h.inside m List.mem_cons_self
    have hstart : i ≤ m.whole.start := hfirst m List.mem_cons_self
    have hbehind : ∀ n ∈ ms, m.whole.stop ≤ n.whole.start :=
      (List.pairwise_cons.mp h.ordered).1
    have htext : m.text = text.extract m.whole.start m.whole.stop := by
      rw [Match.text, Span.slice, hsubject]
    rw [rewrittenFrom, ih (h.sublist (List.sublist_cons_self m ms)) hstop hbehind, htext,
      extract_append hstart hspan, extract_append (hstart.trans hspan) hstop]

/-! ## §3 Replacement -/

/-- The template for the match itself. -/
theorem expand_whole (m : Match) : (expand m (Text.ofString "\\0").toList).toArray = m.text := by
  show (m.text.toList ++ []).toArray = m.text
  simp

/-- Replacing takes the first matches that a search finds, and as many increments of the range. -/
theorem Pattern.replace_eq (p : Pattern) (text template : Text) (count : Nat) (o : FindOptions) :
    let found := (p.findAll text { o with offsets := .absolute }).2
    let range := (MatchRange.new p text { o with offsets := .absolute }).start
    p.replace text template count o =
      { status := (MatchRange.advance^[min count found.length] range).status
        count := min count found.length
        text := rewrittenFrom text (fun m => (expand m template.toList).toArray) 0
          (found.take count) } := by
  intro found range
  have htake : range.take count =
      (found.take count, MatchRange.advance^[min count found.length] range) :=
    range.runsTo_drain.take_eq count
  have hreplace : p.replace text template count o =
      ⟨(range.take count).2.status, (range.take count).1.length,
        splice text template.toList (range.take count).1⟩ := rfl
  rw [hreplace, htake]
  simp [splice, spliceFrom_eq]

/-- Replacing rewrites the first `count` matches that a search finds and keeps
the rest of the text, in order: the text is the matches and the gaps between
them, and so is the result, with the template expanded in place of each match.
The status is that of the range behind the last match replaced, the offset
mode does not matter, and the template `\0` changes nothing. A malformed
pattern replaces nothing. -/
theorem replace_rewrites_matches (w : Width) (pattern text template : Text) (count : Nat)
    (o : FindOptions) :
    (∀ p found, parse w pattern = .ok p →
      found = (findAll w pattern text { o with offsets := .absolute }).2 →
      (replace w pattern text template count o).count = min count found.length ∧
      InOrder text found ∧
      text = rewrittenFrom text (·.text) 0 (found.take count) ∧
      (replace w pattern text template count o).text =
        rewrittenFrom text (fun m => (expand m template.toList).toArray) 0 (found.take count) ∧
      (replace w pattern text template count o).status =
        (MatchRange.advance^[min count found.length]
          (MatchRange.new p text { o with offsets := .absolute }).start).status) ∧
    (∀ e, parse w pattern = .error e →
      replace w pattern text template count o = ⟨.syntaxError e.fault, 0, text⟩) ∧
    (∀ mode, replace w pattern text template count { o with offsets := mode } =
      replace w pattern text template count o) ∧
    (replace w pattern text "\\0" count o).text = text := by
  have hkept (p : Pattern) : text = rewrittenFrom text (·.text) 0
      ((p.findAll text { o with offsets := .absolute }).2.take count) := by
    have horder := p.inOrder_findAll text { o with offsets := .absolute } rfl
    rw [rewrittenFrom_text (horder.sublist (List.take_sublist ..)) (Nat.zero_le _)
      fun _ _ => Nat.zero_le _, Array.extract_size]
  refine ⟨?_, ?_, fun _ => rfl, ?_⟩
  · rintro p found hparse rfl
    have hreplace : replace w pattern text template count o =
        p.replace text template count o := by simp only [replace, hparse]
    have hfind : (findAll w pattern text { o with offsets := .absolute }).2 =
        (p.findAll text { o with offsets := .absolute }).2 := by simp only [findAll, hparse]
    rw [hreplace, hfind, p.replace_eq]
    exact ⟨rfl, p.inOrder_findAll text _ rfl, hkept p, rfl, rfl⟩
  · intro e hparse
    simp only [replace, hparse]
  · cases hparse : parse w pattern with
    | error e => simp only [replace, hparse]
    | ok p =>
      simp only [replace, hparse, p.replace_eq, expand_whole]
      exact (hkept p).symm

/-- Two of three numbers are put in brackets, and the line end stays. -/
theorem replace_twoNumbers :
    ∃ p, parse .narrow "[0-9]+" = .ok p ∧
      (replace .narrow "[0-9]+" "a12\r\nb3 45" "<\\0>" 2 {}).count = 2 ∧
      (replace .narrow "[0-9]+" "a12\r\nb3 45" "<\\0>" 2 {}).text =
        Text.ofString "a<12>\r\nb<3> 45" := by
  have hparse : ∃ p, parse .narrow "[0-9]+" = .ok p := ⟨_, by cbv⟩
  obtain ⟨p, hp⟩ := hparse
  obtain ⟨hcount, -, -, htext, -⟩ :=
    (replace_rewrites_matches .narrow "[0-9]+" "a12\r\nb3 45" "<\\0>" 2 {}).1 p _ hp rfl
  refine ⟨p, hp, ?_, ?_⟩
  · rw [hcount]
    cbv
  · rw [htext]
    cbv

end LineRegex
