/-
`URLUtils`: `ParseURL` beside `StripQueryAndFragment`.

`ParseURL` takes what stands before the first `://` for the scheme, wherever
that is, and looks for the end of the host behind it. Where the `://` is
text of the query, the scheme it returns has the path and part of the query
in it, and `url_without_query` is not without its query.
-/
import ReadCacheFs.CachePaths
import ReadCacheFs.Lib.Cuts

namespace ReadCacheFs

open Lib

structure ParsedURL where
  scheme : String := ""
  host : String := ""
  path : String := ""
  query : String := ""
  fragment : String := ""
  /-- Full URL without query parameters and fragment. -/
  urlWithoutQuery : String := ""
  deriving DecidableEq, Repr

/-- `url.find_first_of(chars, pos)`. -/
def findFirstOf (chars s : List Char) (pos : Nat) : Option Nat :=
  ((s.drop pos).findIdx? fun c => chars.contains c).map (pos + ·)

/-- `url.substr(pos, count)`. -/
def substr (s : List Char) (pos count : Nat) : String := String.ofList (slice s pos count)

/-- `url.substr(pos)`. -/
def substrFrom (s : List Char) (pos : Nat) : String := String.ofList (s.drop pos)

def schemeSeparator : List Char := [':', '/', '/']

/-- The fragment, where one starts at `pos`. -/
def parseFragment (s : List Char) (pos : Nat) (result : ParsedURL) : ParsedURL :=
  if s[pos]? = some '#' then { result with fragment := substrFrom s (pos + 1) } else result

/-- Steps 4 and 5 of `ParseURL`, from the end of the path on. -/
def parseQuery (s : List Char) (pos : Nat) (result : ParsedURL) : ParsedURL :=
  if s[pos]? = some '?' then
    match findFirstOf ['#'] s (pos + 1) with
    | none => { result with query := substrFrom s (pos + 1) }
    | some queryEnd => parseFragment s queryEnd { result with query := substr s (pos + 1) (queryEnd - (pos + 1)) }
  else parseFragment s pos result

/-- Steps 2 to 5, from the start of the host on. -/
def parseHost (s : List Char) (pos : Nat) (result : ParsedURL) : ParsedURL :=
  match findFirstOf ['/', '?', '#'] s pos with
  | none => { result with host := substrFrom s pos, urlWithoutQuery := String.ofList s }
  | some hostEnd =>
    let result := { result with host := substr s pos (hostEnd - pos) }
    match findFirstOf ['?', '#'] s hostEnd with
    | none => { result with path := substrFrom s hostEnd, urlWithoutQuery := String.ofList s }
    | some pathEnd => parseQuery s pathEnd
        { result with path := substr s hostEnd (pathEnd - hostEnd), urlWithoutQuery := substr s 0 pathEnd }

def parseURL (url : String) : ParsedURL :=
  let s := url.toList
  if s = [] then {}
  else match findInfix schemeSeparator s with
    | some schemeEnd => parseHost s (schemeEnd + 3) { scheme := substr s 0 schemeEnd }
    | none => parseHost s 0 {}

/-! ## Query text -/

def startsQuery (c : Char) : Bool := c == '?' || c == '#'

def NoQueryText (s : String) : Prop := ∀ c ∈ s.toList, startsQuery c = false

/-- What `ParseURL` and `StripQueryAndFragment` agree on. -/
structure StrippersAgree (url : String) : Prop where
  urlWithoutQuery : (parseURL url).urlWithoutQuery = stripQueryAndFragment url
  scheme : NoQueryText (parseURL url).scheme
  host : NoQueryText (parseURL url).host
  path : NoQueryText (parseURL url).path

/-- The first `://` stands behind a `?` or a `#`. -/
def SeparatorInQuery (url : String) : Prop :=
  ∃ front c rest, url.toList = front ++ c :: rest ∧ startsQuery c = true ∧
    ¬ schemeSeparator <:+: front ∧ schemeSeparator <:+: rest

theorem stripQueryAndFragment_toList (url : String) :
    (stripQueryAndFragment url).toList = url.toList.takeWhile fun c => !startsQuery c := by
  have hcut : url.toList.takeWhile (fun c => !startsQuery c) =
      url.toList.take (min (url.toList.findIdx (· == '?')) (url.toList.findIdx (· == '#'))) := by
    rw [← findIdx_or, List.takeWhile_eq_take_findIdx_not]
    simp only [Bool.not_not, startsQuery]
  rw [hcut, List.findIdx_eq_getD_findIdx?, List.findIdx_eq_getD_findIdx?, stripQueryAndFragment]
  cases hq : url.toList.findIdx? (· == '?') with
  | none =>
    cases hh : url.toList.findIdx? (· == '#') with
    | none => simp
    | some h =>
      have hlt := (List.findIdx?_eq_some_iff_findIdx_eq.mp hh).1
      simp [Nat.min_eq_right (Nat.le_of_lt hlt)]
  | some q =>
    have hlt := (List.findIdx?_eq_some_iff_findIdx_eq.mp hq).1
    cases hh : url.toList.findIdx? (· == '#') with
    | none => simp [Nat.min_eq_left (Nat.le_of_lt hlt)]
    | some h =>
      simp only [Option.getD_some]
      split
      next hlt => rw [Nat.min_eq_left (Nat.le_of_lt hlt), String.toList_ofList]
      next hge => rw [Nat.min_eq_right (Nat.not_lt.mp hge), String.toList_ofList]

/-! ## The parts -/

section Parts

variable {chars s : List Char} {pos i : Nat} {result : ParsedURL}

theorem findFirstOf_some (h : findFirstOf chars s pos = some i) :
    pos ≤ i ∧ slice s pos (i - pos) = (s.drop pos).takeWhile (fun c => !chars.contains c) ∧
      s.drop i = (s.drop pos).dropWhile fun c => !chars.contains c := by
  obtain ⟨j, hj, rfl⟩ := Option.map_eq_some_iff.mp h
  obtain ⟨htake, hdrop⟩ := cut_of_findIdx?_eq_some hj
  refine ⟨Nat.le_add_right _ _, ?_, ?_⟩
  · rw [slice, Nat.add_sub_cancel_left, htake]
  · rw [← hdrop, List.drop_drop]

theorem findFirstOf_none (h : findFirstOf chars s pos = none) :
    (s.drop pos).takeWhile (fun c => !chars.contains c) = s.drop pos :=
  takeWhile_of_findIdx?_eq_none (Option.map_eq_none_iff.mp h)

/-- The query and the fragment change nothing of what is before them. -/
theorem parseQuery_parts (s : List Char) (pos : Nat) (result : ParsedURL) :
    (parseQuery s pos result).scheme = result.scheme ∧ (parseQuery s pos result).host = result.host ∧
      (parseQuery s pos result).path = result.path ∧
      (parseQuery s pos result).urlWithoutQuery = result.urlWithoutQuery := by
  unfold parseQuery parseFragment
  split
  · split
    · exact ⟨rfl, rfl, rfl, rfl⟩
    · split <;> exact ⟨rfl, rfl, rfl, rfl⟩
  · split <;> exact ⟨rfl, rfl, rfl, rfl⟩

theorem contains_startsQuery (c : Char) : ['?', '#'].contains c = startsQuery c := by
  rw [startsQuery, List.contains_cons, List.contains_cons, List.contains_nil, Bool.or_false]

theorem contains_hostEnd {c : Char} (h : ['/', '?', '#'].contains c = false) : startsQuery c = false := by
  simp only [List.contains_cons, List.contains_nil, Bool.or_false, Bool.or_eq_false_iff] at h
  rw [startsQuery, h.2.1, h.2.2]
  rfl

/-- What `parseHost` makes of the rest of the URL from `pos` on. -/
structure HostParts (s : List Char) (pos : Nat) (result parsed : ParsedURL) : Prop where
  scheme : parsed.scheme = result.scheme
  host : NoQueryText parsed.host
  path : NoQueryText parsed.path
  urlWithoutQuery : parsed.urlWithoutQuery.toList =
    s.take pos ++ (s.drop pos).takeWhile fun c => !startsQuery c

theorem parseHost_parts (s : List Char) (pos : Nat) (hpath : result.path = "") :
    HostParts s pos result (parseHost s pos result) := by
  have hplain : ∀ c ∈ (s.drop pos).takeWhile (fun c => !(['/', '?', '#'] : List Char).contains c),
      startsQuery c = false :=
    fun c hc => contains_hostEnd (by simpa using List.mem_takeWhile_imp hc)
  unfold parseHost
  split
  next hhost =>
    -- No path either: the rest has no query text.
    rw [findFirstOf_none hhost] at hplain
    have hall : (s.drop pos).takeWhile (fun c => !startsQuery c) = s.drop pos :=
      List.takeWhile_eq_self_iff.mpr fun c hc => by rw [hplain c hc]; rfl
    refine ⟨rfl, ?_, ?_, ?_⟩
    · simpa [NoQueryText, substrFrom] using hplain
    · simp [NoQueryText, hpath]
    · rw [hall, List.take_append_drop, String.toList_ofList]
  next hostEnd hhost =>
    obtain ⟨hle, hslice, hdrop⟩ := findFirstOf_some hhost
    -- The rest without its query: the host, and the path's characters.
    have hrest : s.take pos ++ (s.drop pos).takeWhile (fun c => !startsQuery c) =
        s.take hostEnd ++ (s.drop hostEnd).takeWhile (fun c => !startsQuery c) := by
      have hkept : (slice s pos (hostEnd - pos) ++ s.drop hostEnd).takeWhile (fun c => !startsQuery c) =
          slice s pos (hostEnd - pos) ++ (s.drop hostEnd).takeWhile (fun c => !startsQuery c) :=
        List.takeWhile_append_of_pos fun c hc => by rw [hplain c (hslice ▸ hc)]; rfl
      have hwhole : slice s pos (hostEnd - pos) ++ s.drop hostEnd = s.drop pos := by
        rw [hslice, hdrop, List.takeWhile_append_dropWhile]
      rw [← hwhole, hkept, ← List.append_assoc, take_append_slice, Nat.add_sub_cancel' hle]
    have hhostText : NoQueryText (substr s pos (hostEnd - pos)) := by
      rw [NoQueryText, substr, String.toList_ofList, hslice]
      exact hplain
    have hpathText : ∀ c ∈ (s.drop hostEnd).takeWhile (fun c => !startsQuery c), startsQuery c = false :=
      fun c hc => by simpa using List.mem_takeWhile_imp hc
    dsimp only
    split
    next hq =>
      have hall := findFirstOf_none hq
      simp only [contains_startsQuery] at hall
      rw [hall] at hpathText hrest
      refine ⟨rfl, hhostText, ?_, ?_⟩
      · simpa [NoQueryText, substrFrom] using hpathText
      · rw [hrest, List.take_append_drop, String.toList_ofList]
    next pathEnd hq =>
      obtain ⟨hle', hslice', -⟩ := findFirstOf_some hq
      simp only [contains_startsQuery] at hslice'
      obtain ⟨h1, h2, h3, h4⟩ := parseQuery_parts s pathEnd
        { result with
          host := substr s pos (hostEnd - pos)
          path := substr s hostEnd (pathEnd - hostEnd)
          urlWithoutQuery := substr s 0 pathEnd }
      have hpathPart : NoQueryText (substr s hostEnd (pathEnd - hostEnd)) := by
        rw [NoQueryText, substr, String.toList_ofList, hslice']
        exact hpathText
      refine ⟨h1, h2 ▸ hhostText, h3 ▸ hpathPart, ?_⟩
      rw [hrest, h4, ← hslice', take_append_slice, Nat.add_sub_cancel' hle']
      exact String.toList_ofList

end Parts

/-! ## Agreement -/

/-- The parts agree if the separator is not in the query, whatever it is. -/
theorem strippersAgree_of_parts {url : String} {pos : Nat} {result : ParsedURL}
    (h : HostParts url.toList pos result (parseURL url)) :
    StrippersAgree url ↔ NoQueryText result.scheme ∧ ∀ c ∈ url.toList.take pos, startsQuery c = false := by
  have hsplit : (∀ c ∈ url.toList.take pos, startsQuery c = false) →
      url.toList.takeWhile (fun c => !startsQuery c) =
        url.toList.take pos ++ (url.toList.drop pos).takeWhile fun c => !startsQuery c := by
    intro hfree
    rw [← List.takeWhile_append_of_pos fun c hc => by rw [hfree c hc]; rfl, List.take_append_drop]
  constructor
  · intro ha
    refine ⟨h.scheme ▸ ha.scheme, fun c hc => ?_⟩
    have heq := congrArg String.toList ha.urlWithoutQuery
    rw [h.urlWithoutQuery, stripQueryAndFragment_toList] at heq
    have hmem : c ∈ url.toList.takeWhile fun c => !startsQuery c := heq ▸ List.mem_append_left _ hc
    simpa using List.mem_takeWhile_imp hmem
  · rintro ⟨hscheme, hfree⟩
    refine ⟨?_, h.scheme ▸ hscheme, h.host, h.path⟩
    rw [← String.toList_inj, h.urlWithoutQuery, stripQueryAndFragment_toList, hsplit hfree]

/-- The separator is in the query where query text stands before its first occurrence. -/
theorem separatorInQuery_iff {url : String} {n : Nat} (h : findInfix schemeSeparator url.toList = some n) :
    SeparatorInQuery url ↔ ∃ c ∈ url.toList.take n, startsQuery c = true := by
  have hn : schemeSeparator <+: url.toList.drop n := prefix_of_findInfix h
  constructor
  · rintro ⟨front, c, rest, hurl, hc, hfront, -⟩
    have hsep : c ∉ schemeSeparator := by
      intro hm
      simp only [schemeSeparator, List.mem_cons, List.not_mem_nil, or_false] at hm
      rcases hm with rfl | rfl | rfl <;> cases hc
    have hlt : front.length < n := by
      by_contra hge
      rw [hurl] at hn
      exact hfront (infix_of_prefix_drop hsep (by omega) hn)
    refine ⟨c, ?_, hc⟩
    rw [hurl, List.mem_take_iff_getElem]
    exact ⟨front.length, by simp; omega, by simp⟩
  · rintro ⟨c, hm, hc⟩
    obtain ⟨front, back, hfb⟩ := List.append_of_mem hm
    have hurl : url.toList = front ++ c :: (back ++ url.toList.drop n) := by
      conv_lhs => rw [← List.take_append_drop n url.toList, hfb]
      simp
    refine ⟨front, c, _, hurl, hc, ?_, hn.isInfix.trans (List.suffix_append _ _).isInfix⟩
    rintro ⟨before, after, hf⟩
    -- A separator within `front` would have been found.
    have hlen : before.length < n := by
      have h1 := congrArg List.length hf
      have h2 := congrArg List.length hfb
      simp [schemeSeparator] at h1 h2
      omega
    refine not_prefix_of_findInfix h hlen ⟨after ++ c :: (back ++ url.toList.drop n), ?_⟩
    conv_rhs => rw [hurl, ← hf]
    simp

theorem separatorInQuery_found {url : String} (h : SeparatorInQuery url) : schemeSeparator <:+: url.toList := by
  obtain ⟨front, c, rest, hurl, -, -, hrest⟩ := h
  rw [hurl]
  exact hrest.trans ⟨front ++ [c], [], by simp⟩

theorem noQueryText_take (s : List Char) (n : Nat) :
    NoQueryText (substr s 0 n) ↔ ∀ c ∈ s.take n, startsQuery c = false := by
  rw [NoQueryText, substr, String.toList_ofList, slice, List.drop_zero]

/-- The strippers agree, and no part has query text, unless the first `://`
is itself behind a `?` or a `#`. -/
theorem strippersAgree_iff (url : String) : StrippersAgree url ↔ ¬ SeparatorInQuery url := by
  have hparse : parseURL url = if url.toList = [] then {}
      else match findInfix schemeSeparator url.toList with
        | some schemeEnd => parseHost url.toList (schemeEnd + 3) { scheme := substr url.toList 0 schemeEnd }
        | none => parseHost url.toList 0 {} := rfl
  by_cases hnil : url.toList = []
  · rw [if_pos hnil] at hparse
    have hparts : HostParts url.toList 0 {} (parseURL url) := by
      rw [hparse, hnil]
      exact ⟨rfl, by simp [NoQueryText], by simp [NoQueryText], rfl⟩
    rw [strippersAgree_of_parts hparts]
    refine iff_of_true ⟨by simp [NoQueryText], by simp⟩ fun h => ?_
    have := separatorInQuery_found h
    rw [hnil] at this
    cases List.infix_nil.mp this
  rw [if_neg hnil] at hparse
  cases hsep : findInfix schemeSeparator url.toList with
  | none =>
    rw [hsep] at hparse
    have hparts : HostParts url.toList 0 {} (parseURL url) := hparse ▸ parseHost_parts url.toList 0 rfl
    rw [strippersAgree_of_parts hparts]
    refine iff_of_true ⟨by simp [NoQueryText], by simp⟩ fun h => ?_
    obtain ⟨n, hn⟩ := findInfix_isSome (separatorInQuery_found h)
    rw [hsep] at hn
    cases hn
  | some n =>
    rw [hsep] at hparse
    have hparts : HostParts url.toList (n + 3) { scheme := substr url.toList 0 n } (parseURL url) :=
      hparse ▸ parseHost_parts url.toList (n + 3) rfl
    rw [strippersAgree_of_parts hparts, separatorInQuery_iff hsep, noQueryText_take]
    -- The separator itself is no query text.
    have hthree : url.toList.take (n + 3) = url.toList.take n ++ schemeSeparator := by
      obtain ⟨rest, hrest⟩ := prefix_of_findInfix hsep
      rw [List.take_add, ← hrest]
      rfl
    rw [hthree]
    constructor
    · rintro ⟨hfree, -⟩ ⟨c, hc, hq⟩
      rw [hfree c hc] at hq
      cases hq
    · intro hno
      have hfree : ∀ c ∈ url.toList.take n, startsQuery c = false := fun c hc => by
        by_contra hq
        exact hno ⟨c, hc, by simpa using hq⟩
      refine ⟨hfree, fun c hc => ?_⟩
      rcases List.mem_append.mp hc with hc | hc
      · exact hfree c hc
      · simp only [schemeSeparator, List.mem_cons, List.not_mem_nil, or_false] at hc
        rcases hc with rfl | rfl | rfl <;> rfl

/-- A path whose query names another URL. -/
theorem strippersAgree_nested_url : ¬ StrippersAgree "/data/f.parquet?src=s3://b" := by
  intro h
  have hurl : (parseURL "/data/f.parquet?src=s3://b").urlWithoutQuery ≠
      stripQueryAndFragment "/data/f.parquet?src=s3://b" := by decide +kernel
  exact hurl h.urlWithoutQuery

end ReadCacheFs
