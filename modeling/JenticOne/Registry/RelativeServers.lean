import JenticOne.Registry.JoinedServers

/-!
# Relative Servers of Documents

What a walk over a document makes of its servers. When every server of the
document is sound, nothing but the refusal ends the walk; each list that has a
server with a URL keeps one that names its own host or was resolved; what was
resolved stands at the base or at its own host; the others are as they were, in
their order; and a second walk changes nothing.

A list is followed through the loop by what the loop has collected of it, and the
document by its members. What is kept is stable, that is kept again, and the
second walk only meets stable servers.

## Main definitions

* `serverLists`: The lists of servers of a document.
* `ListMeets`, `Meets`: What a list and a document are to be.
* `Stable`: A server that is kept as it is.

## Theorems

* `resolveList_spec`: One list.
* `resolvePathItem_spec`, `resolvePaths_spec`: The lists of a path and of all paths.
* `resolveRelativeServers_meets`: A document of sound servers.
-/

namespace JenticOne

namespace Registry

namespace ServerUrls

open Urllib

/-! ## What a document is to be -/

/-- The servers of an operation, if it is one. -/
def operationLists (method : String) : Json → List (List Json)
  | .obj holder => if method ∈ httpMethods then [serversOf holder] else []
  | _ => []

/-- The lists of servers of a path item: its own, and those of its operations. -/
def pathItemLists : Json → List (List Json)
  | .obj holder => serversOf holder :: holder.flatMap fun x => operationLists x.1 x.2
  | _ => []

/-- The lists of servers of the paths of a document. -/
def pathLists : Option Json → List (List Json)
  | some (.obj paths) => paths.flatMap fun x => pathItemLists x.2
  | _ => []

/-- The lists of servers of a document. -/
def serverLists (content : Members) : List (List Json) :=
  serversOf content :: pathLists ((Json.obj content).get? "paths")

variable (lib : Stdlib) (contentHosts : List Text) (base : DocumentBase)

/-- The server was given another URL, and nothing else of it was changed. -/
def Resolved (server server' : Json) : Prop :=
  ∃ url resolved, urlOf server = some url ∧ server' = withUrl resolved server ∧
    ResolvedTo lib contentHosts base url (variablesOf server) resolved

def Named (server : Json) : Prop :=
  ∃ url, urlOf server = some url ∧ NamesHost lib url (variablesOf server)

/-- Some servers of the list were kept, in their order, each as it was or resolved,
and if a server of the list has a URL, one was kept that names its host or was
resolved. -/
def ListMeets (servers servers' : List Json) : Prop :=
  ∃ kept : List (Json × Json), (kept.map Prod.fst).Sublist servers ∧ servers' = kept.map Prod.snd ∧
    (∀ x ∈ kept, x.2 = x.1 ∨ Resolved lib contentHosts base x.1 x.2) ∧
    ((∃ server ∈ servers, (urlOf server).isSome = true) →
      ∃ x ∈ kept, Resolved lib contentHosts base x.1 x.2 ∨ x.2 = x.1 ∧ Named lib x.1)

/-- What is said of a user import: nothing but the refusal ends the walk, and when
there is none, the lists are as they are to be and a second walk changes nothing. -/
def Meets (content : Members) : Prop :=
  match resolveRelativeServers lib content base true with
  | .error .valueError => False
  | .error (.relativeServerUrl _ _) => True
  | .ok (content', _) =>
      List.Forall₂ (ListMeets lib contentHosts base) (serverLists content) (serverLists content') ∧
        resolveRelativeServers lib content' base true = .ok (content', {})

def SoundServer (server : Json) : Prop :=
  ∀ url ∈ urlOf server, Sound lib base url (variablesOf server)

/-- The server is kept as it is. -/
def Stable (server : Json) : Prop :=
  ∀ url ∈ urlOf server, classify lib url (variablesOf server) base = some .keep

variable {lib contentHosts base}

/-! ## One list -/

/-- A server with another URL has this URL and the same variables. -/
theorem withUrl_spec {server : Json} {url : Text} (h : urlOf server = some url) (resolved : Text) :
    urlOf (withUrl resolved server) = some resolved ∧
      variablesOf (withUrl resolved server) = variablesOf server := by
  have hget : ∃ members old, server = .obj members ∧ (Json.obj members).get? "url" = some old := by
    rw [urlOf] at h
    split at h
    · rename_i url' hurl
      cases server with
      | obj members => exact ⟨members, _, rfl, hurl⟩
      | _ => exact absurd hurl (by simp only [Json.get?, reduceCtorEq, not_false_eq_true])
    · exact absurd h (by simp only [reduceCtorEq, not_false_eq_true])
  rcases hget with ⟨members, old, rfl, hold⟩
  have hother := Json.get?_replaceMember hold (.str (String.ofList resolved))
  rw [withUrl, urlOf, variablesOf, variablesOf, hother, hother, if_pos rfl,
    if_neg (by decide)]
  exact ⟨congrArg some String.toList_ofList, rfl⟩

/-- What the loop has collected of a list of servers. -/
structure Collected (lib : Stdlib) (contentHosts : List Text) (base : DocumentBase)
    (servers : List Json) (kept : List (Json × Json)) (problems : List (Text × ServerUrlProblem))
    (resolved : List (Text × Text)) (left : Bool) : Prop where
  sublist : (kept.map Prod.fst).Sublist servers
  fates : ∀ x ∈ kept, x.2 = x.1 ∨ Resolved lib contentHosts base x.1 x.2
  stable : ∀ x ∈ kept, Stable lib base x.2
  host : left = true →
    ∃ x ∈ kept, Resolved lib contentHosts base x.1 x.2 ∨ x.2 = x.1 ∧ Named lib x.1
  urls : (∃ server ∈ servers, (urlOf server).isSome = true) → problems = [] → left = true
  untouched : problems = [] → resolved = [] → kept.map Prod.snd = servers

theorem collected_nil : Collected lib contentHosts base [] [] [] [] false where
  sublist := List.Sublist.refl []
  fates _ hx := absurd hx List.not_mem_nil
  stable _ hx := absurd hx List.not_mem_nil
  host h := absurd h Bool.false_ne_true
  urls h := absurd h (by simp only [List.not_mem_nil, false_and, exists_false, not_false_eq_true])
  untouched _ _ := rfl

section Turns

variable {servers : List Json} {kept : List (Json × Json)} {server : Json} {url : Text}
  {problems : List (Text × ServerUrlProblem)} {resolved : List (Text × Text)} {left : Bool}

variable (server) in
/-- A server that is kept. -/
theorem Collected.keep (h : Collected lib contentHosts base servers kept problems resolved left)
    (hstable : Stable lib base server) (hnamed : (urlOf server).isSome = true → Named lib server) :
    Collected lib contentHosts base (server :: servers) ((server, server) :: kept) problems
      resolved ((urlOf server).isSome || left) where
  sublist := h.sublist.cons_cons server
  fates := List.forall_mem_cons.mpr ⟨Or.inl rfl, h.fates⟩
  stable := List.forall_mem_cons.mpr ⟨hstable, h.stable⟩
  host hleft := by
    rcases Bool.or_eq_true_iff.mp hleft with hurl | hleft
    · exact ⟨_, List.mem_cons_self, Or.inr ⟨rfl, hnamed hurl⟩⟩
    · rcases h.host hleft with ⟨x, hx, hfate⟩
      exact ⟨x, List.mem_cons_of_mem _ hx, hfate⟩
  urls hurl hproblems := by
    rcases hurl with ⟨s, hs, hurl⟩
    rcases List.mem_cons.mp hs with rfl | hs
    · rw [hurl, Bool.true_or]
    · rw [h.urls ⟨s, hs, hurl⟩ hproblems, Bool.or_true]
  untouched hproblems hresolved := by
    rw [List.map_cons, h.untouched hproblems hresolved]

/-- A server that has no absolute form. -/
theorem Collected.drop (h : Collected lib contentHosts base servers kept problems resolved left)
    (server : Json) (problem : Text × ServerUrlProblem) :
    Collected lib contentHosts base (server :: servers) kept (problem :: problems) resolved
      left where
  sublist := h.sublist.cons server
  fates := h.fates
  stable := h.stable
  host := h.host
  urls _ hproblems := absurd hproblems (List.cons_ne_nil problem problems)
  untouched hproblems := absurd hproblems (List.cons_ne_nil problem problems)

/-- A server that is resolved. -/
theorem Collected.resolve (h : Collected lib contentHosts base servers kept problems resolved left)
    (hurl : urlOf server = some url) {absolute : Text}
    (hto : ResolvedTo lib contentHosts base url (variablesOf server) absolute)
    (hkeep : classify lib absolute (variablesOf server) base = some .keep) :
    Collected lib contentHosts base (server :: servers) ((server, withUrl absolute server) :: kept)
      problems ((url, absolute) :: resolved) true where
  sublist := h.sublist.cons_cons server
  fates := List.forall_mem_cons.mpr ⟨Or.inr ⟨url, absolute, hurl, rfl, hto⟩, h.fates⟩
  stable := by
    refine List.forall_mem_cons.mpr ⟨fun url' hurl' => ?_, h.stable⟩
    rcases withUrl_spec hurl absolute with ⟨hnew, hvariables⟩
    rw [hnew, Option.mem_def, Option.some.injEq] at hurl'
    rw [← hurl', hvariables]
    exact hkeep
  host _ := ⟨_, List.mem_cons_self, Or.inl ⟨url, absolute, hurl, rfl, hto⟩⟩
  urls _ _ := rfl
  untouched _ hresolved := absurd hresolved (List.cons_ne_nil _ resolved)

end Turns

/-- The loop over sound servers, from what it has collected before. -/
theorem foldlM_tallyServer (hlib : lib.Lawful)
    (hbase : base.url = none ∧ base.scheme = none ∨
      ∃ scheme netloc, WebBase lib contentHosts base scheme netloc)
    {servers : List Json} (hsound : ∀ server ∈ servers, SoundServer lib base server)
    (tally : Tally) :
    ∃ kept problems resolved left,
      servers.foldlM (tallyServer lib base) tally = some ⟨tally.kept ++ kept.map Prod.snd,
        tally.problems ++ problems, tally.resolved ++ resolved, tally.absoluteLeft || left⟩ ∧
      Collected lib contentHosts base servers kept problems resolved left := by
  induction servers generalizing tally with
  | nil =>
      refine ⟨[], [], [], false, ?_, collected_nil⟩
      rw [List.map_nil, List.append_nil, List.append_nil, List.append_nil, Bool.or_false]
      rfl
  | cons server servers ih =>
      rw [List.forall_mem_cons] at hsound
      have hturn : ∀ {next : Tally}, tallyServer lib base tally server = some next →
          (server :: servers).foldlM (tallyServer lib base) tally =
            servers.foldlM (tallyServer lib base) next := by
        intro next hnext
        rw [List.foldlM_cons, hnext]
        rfl
      cases hurl : urlOf server with
      | none =>
          have hnext : tallyServer lib base tally server =
              some { tally with kept := tally.kept ++ [server] } := by
            rw [tallyServer, hurl]
          rcases ih hsound.2 { tally with kept := tally.kept ++ [server] } with
            ⟨kept, problems, resolved, left, hloop, hcollected⟩
          have hkept := hcollected.keep server
            (fun url h => absurd h (by rw [hurl]; simp))
            (fun h => absurd h (by rw [hurl]; exact Bool.false_ne_true))
          refine ⟨_, _, _, _, ?_, hkept⟩
          rw [hturn hnext, hloop, hurl, List.map_cons, List.append_assoc]
          rfl
      | some url =>
          have hclassify := classify_spec hlib hbase (hsound.1 url hurl)
          rcases hclassify with ⟨outcome, hclassify, hmeant⟩
          have hnext : tallyServer lib base tally server = some (tally.add server url outcome) := by
            rw [tallyServer, hurl]
            dsimp only
            rw [hclassify]
            rfl
          rcases ih hsound.2 (tally.add server url outcome) with
            ⟨kept, problems, resolved, left, hloop, hcollected⟩
          cases outcome with
          | keep =>
              have hstable : Stable lib base server := by
                intro url' hurl'
                rw [hurl, Option.mem_def, Option.some.injEq] at hurl'
                rw [← hurl']
                exact hclassify
              refine ⟨_, _, _, _, ?_, hcollected.keep server hstable fun _ => ⟨url, hurl, hmeant⟩⟩
              rw [hturn hnext, hloop, hurl, Tally.add, List.map_cons, List.append_assoc,
                Option.isSome_some, Bool.true_or, Bool.or_true]
              rfl
          | problem problem =>
              refine ⟨_, _, _, _, ?_, hcollected.drop server (url, problem)⟩
              rw [hturn hnext, hloop, Tally.add, List.append_assoc]
              rfl
          | absolute absolute =>
              refine ⟨_, _, _, _, ?_, hcollected.resolve hurl hmeant.1 hmeant.2⟩
              rw [hturn hnext, hloop, Tally.add, List.map_cons, List.append_assoc,
                List.append_assoc, Bool.true_or, Bool.or_true]
              rfl

/-- The loop over stable servers keeps them all. -/
theorem foldlM_stable {servers : List Json} (h : ∀ server ∈ servers, Stable lib base server)
    (tally : Tally) :
    ∃ left, servers.foldlM (tallyServer lib base) tally =
      some ⟨tally.kept ++ servers, tally.problems, tally.resolved, left⟩ := by
  induction servers generalizing tally with
  | nil =>
      refine ⟨tally.absoluteLeft, ?_⟩
      rw [List.append_nil]
      rfl
  | cons server servers ih =>
      rw [List.forall_mem_cons] at h
      have hnext : ∃ left, tallyServer lib base tally server =
          some ⟨tally.kept ++ [server], tally.problems, tally.resolved, left⟩ := by
        rw [tallyServer]
        cases hurl : urlOf server with
        | none => exact ⟨_, rfl⟩
        | some url =>
            dsimp only
            rw [h.1 url hurl]
            exact ⟨true, rfl⟩
      rcases hnext with ⟨left, hnext⟩
      rcases ih h.2 ⟨tally.kept ++ [server], tally.problems, tally.resolved, left⟩ with
        ⟨left', hloop⟩
      refine ⟨left', ?_⟩
      rw [List.foldlM_cons, hnext]
      refine hloop.trans ?_
      rw [List.append_assoc]
      rfl

/-- A list of stable servers is left as it is. -/
theorem resolveList_stable {holder : Members}
    (h : ∀ server ∈ serversOf holder, Stable lib base server) (strict : Bool)
    (carried : Carried) : resolveList lib base strict holder carried = some (holder, carried) := by
  rw [resolveList]
  by_cases hempty : serversOf holder = []
  · rw [if_pos hempty]
  · rw [if_neg hempty]
    rcases foldlM_stable h {} with ⟨left, hloop⟩
    rw [hloop, Option.map_some, settle, if_neg fun hc => hc.1 rfl, if_pos ⟨rfl, rfl⟩]

/-- The holder has the same members, but for its servers. -/
def SameBut (holder holder' : Members) : Prop :=
  holder' = holder ∨ ∃ old servers, (Json.obj holder).get? "servers" = some old ∧
    holder' = Json.replaceMember "servers" (.arr servers) holder

/-- What the walk makes of a holder of servers, if it does not refuse them. -/
structure HolderMeets (lib : Stdlib) (contentHosts : List Text) (base : DocumentBase)
    (holder holder' : Members) : Prop where
  list : ListMeets lib contentHosts base (serversOf holder) (serversOf holder')
  stable : ∀ server ∈ serversOf holder', Stable lib base server

theorem serversOf_replaceMember {holder : Members} {old : Json}
    (h : (Json.obj holder).get? "servers" = some old) (servers : List Json) :
    serversOf (Json.replaceMember "servers" (.arr servers) holder) = servers := by
  rw [serversOf, Json.get?_replaceMember h, if_pos rfl]

/-- One list of sound servers: it is refused, or it is as it is to be. -/
theorem resolveList_spec (hlib : lib.Lawful)
    (hbase : base.url = none ∧ base.scheme = none ∨
      ∃ scheme netloc, WebBase lib contentHosts base scheme netloc)
    {holder : Members} (hsound : ∀ server ∈ serversOf holder, SoundServer lib base server)
    (carried : Carried) :
    ∃ holder' carried', resolveList lib base true holder carried = some (holder', carried') ∧
      SameBut holder holder' ∧ (carried'.refused = [] →
        carried.refused = [] ∧ HolderMeets lib contentHosts base holder holder') := by
  rw [resolveList]
  by_cases hempty : serversOf holder = []
  · rw [if_pos hempty]
    refine ⟨holder, carried, rfl, Or.inl rfl, fun h => ⟨h, ?_, ?_⟩⟩
    · rw [hempty]
      refine ⟨[], List.Sublist.refl [], rfl, fun x hx => absurd hx List.not_mem_nil, ?_⟩
      rintro ⟨server, hserver, _⟩
      exact absurd hserver List.not_mem_nil
    · rw [hempty]
      exact fun server hserver => absurd hserver List.not_mem_nil
  · rw [if_neg hempty]
    rcases foldlM_tallyServer hlib hbase hsound {} with
      ⟨kept, problems, resolved, left, hloop, hcollected⟩
    rw [hloop, Option.map_some, settle]
    dsimp only
    rw [List.nil_append, List.nil_append, List.nil_append, Bool.false_or]
    have hlist : ∀ servers', servers' = kept.map Prod.snd → (problems = [] ∨ left = true) →
        ListMeets lib contentHosts base (serversOf holder) servers' := by
      intro servers' hservers hleft
      refine ⟨kept, hcollected.sublist, hservers, hcollected.fates, fun hurl => ?_⟩
      exact hcollected.host (hleft.elim (hcollected.urls hurl) id)
    have hstable : ∀ server ∈ kept.map Prod.snd, Stable lib base server := by
      intro server hserver
      rcases List.mem_map.mp hserver with ⟨x, hx, rfl⟩
      exact hcollected.stable x hx
    by_cases hrefused : problems ≠ [] ∧ left = false
    · rw [if_pos hrefused, if_pos rfl]
      refine ⟨holder, _, rfl, Or.inl rfl, fun h => ?_⟩
      exact absurd (List.append_eq_nil_iff.mp h).2 hrefused.1
    · rw [if_neg hrefused]
      have hleft : problems = [] ∨ left = true := by
        by_cases hproblems : problems = []
        · exact Or.inl hproblems
        · exact Or.inr (Bool.eq_true_of_not_eq_false fun h => hrefused ⟨hproblems, h⟩)
      by_cases hsame : problems = [] ∧ resolved = []
      · rw [if_pos hsame]
        have hkept := hcollected.untouched hsame.1 hsame.2
        refine ⟨holder, carried, rfl, Or.inl rfl, fun h => ⟨h, hlist _ hkept.symm hleft, ?_⟩⟩
        rw [← hkept]
        exact hstable
      · rw [if_neg hsame]
        have hold : ∃ old, (Json.obj holder).get? "servers" = some old := by
          cases hget : (Json.obj holder).get? "servers" with
          | none => exact absurd (by rw [serversOf, hget]) hempty
          | some old => exact ⟨old, rfl⟩
        rcases hold with ⟨old, hold⟩
        have hnew := serversOf_replaceMember hold (kept.map Prod.snd)
        refine ⟨_, _, rfl, Or.inr ⟨old, _, hold, rfl⟩, fun h => ⟨h, hlist _ hnew hleft, ?_⟩⟩
        rw [hnew]
        exact hstable

/-! ## Members -/

section Members

variable {step : String → Json → Carried → Option (Json × Carried)}

/-- A step that does to each member what is wanted, unless something is refused, does
it to all of them. -/
theorem eachMember_spec {Q : String → Json → Json → Prop} {members : Members}
    (hstep : ∀ x ∈ members, ∀ carried, ∃ value carried',
      step x.1 x.2 carried = some (value, carried') ∧
        (carried'.refused = [] → carried.refused = [] ∧ Q x.1 x.2 value))
    (carried : Carried) :
    ∃ members' carried', eachMember step members carried = some (members', carried') ∧
      (carried'.refused = [] → carried.refused = [] ∧
        List.Forall₂ (fun x y => x.1 = y.1 ∧ Q x.1 x.2 y.2) members members') := by
  induction members generalizing carried with
  | nil => exact ⟨[], carried, rfl, fun h => ⟨h, List.Forall₂.nil⟩⟩
  | cons x members ih =>
      rw [List.forall_mem_cons] at hstep
      rcases hstep.1 carried with ⟨value, carried₁, hone, hfirst⟩
      rcases ih hstep.2 carried₁ with ⟨members', carried', hrest, hlast⟩
      refine ⟨(x.1, value) :: members', carried', ?_, fun h => ?_⟩
      · rw [eachMember, hone, Option.bind_some, hrest]
        rfl
      · rcases hlast h with ⟨h₁, hmembers⟩
        rcases hfirst h₁ with ⟨h₀, hvalue⟩
        exact ⟨h₀, List.Forall₂.cons ⟨rfl, hvalue⟩ hmembers⟩

/-- A step that leaves each member as it is leaves them all. -/
theorem eachMember_fixed {members : Members}
    (h : ∀ x ∈ members, ∀ carried, step x.1 x.2 carried = some (x.2, carried))
    (carried : Carried) : eachMember step members carried = some (members, carried) := by
  induction members with
  | nil => rfl
  | cons x members ih =>
      rw [List.forall_mem_cons] at h
      rw [eachMember, h.1 carried, Option.bind_some, ih h.2]
      rfl

end Members

theorem find?_of_forall₂ {key : String} {members members' : Members}
    (h : List.Forall₂ (fun x y => x.1 = y.1 ∧ (x.1 = key → x.2 = y.2)) members members') :
    (members.find? fun x => x.1 = key).map Prod.snd =
      (members'.find? fun x => x.1 = key).map Prod.snd := by
  induction h with
  | nil => rfl
  | cons hxy _ ih =>
      rename_i x y members members' _
      rw [List.find?_cons, List.find?_cons, ← hxy.1]
      by_cases hkey : x.1 = key
      · rw [decide_eq_true hkey]
        exact congrArg some (hxy.2 hkey)
      · rw [decide_eq_false hkey]
        exact ih

theorem get?_of_forall₂ {key : String} {members members' : Members}
    (h : List.Forall₂ (fun x y => x.1 = y.1 ∧ (x.1 = key → x.2 = y.2)) members members') :
    (Json.obj members).get? key = (Json.obj members').get? key :=
  find?_of_forall₂ (List.rel_reverse h)

/-- The lists that pairs of members have, put together. -/
theorem forall₂_flatMap {R : List Json → List Json → Prop} {S : String × Json → String × Json → Prop}
    {lists : String × Json → List (List Json)} {members members' : Members}
    (hlists : ∀ x y, S x y → List.Forall₂ R (lists x) (lists y))
    (h : List.Forall₂ S members members') :
    List.Forall₂ R (members.flatMap lists) (members'.flatMap lists) := by
  induction h with
  | nil => exact List.Forall₂.nil
  | cons hxy _ ih =>
      rw [List.flatMap_cons, List.flatMap_cons]
      exact List.rel_append (hlists _ _ hxy) ih

/-- The right member of a related pair. -/
theorem exists_of_mem_right {S : String × Json → String × Json → Prop}
    {members members' : Members} (h : List.Forall₂ S members members') {y : String × Json}
    (hy : y ∈ members') : ∃ x, S x y := by
  induction h with
  | nil => exact absurd hy List.not_mem_nil
  | cons hxy _ ih =>
      rcases List.mem_cons.mp hy with rfl | hy
      · exact ⟨_, hxy⟩
      · exact ih hy

/-! ## Documents -/

/-- A member of a path item, before and after. -/
structure OperationMeets (lib : Stdlib) (contentHosts : List Text) (base : DocumentBase)
    (method : String) (operation operation' : Json) : Prop where
  lists : List.Forall₂ (ListMeets lib contentHosts base) (operationLists method operation)
    (operationLists method operation')
  fixed : ∀ carried,
    resolveOperation lib base true method operation' carried = some (operation', carried)
  frame : method ∉ httpMethods → operation = operation'

theorem operationLists_of_not_mem {method : String} (h : method ∉ httpMethods) (operation : Json) :
    operationLists method operation = [] := by
  cases operation with
  | obj holder => rw [operationLists, if_neg h]
  | _ => rfl

theorem resolveOperation_spec (hlib : lib.Lawful)
    (hbase : base.url = none ∧ base.scheme = none ∨
      ∃ scheme netloc, WebBase lib contentHosts base scheme netloc)
    {method : String} {operation : Json}
    (hsound : ∀ servers ∈ operationLists method operation, ∀ server ∈ servers,
      SoundServer lib base server) (carried : Carried) :
    ∃ operation' carried',
      resolveOperation lib base true method operation carried = some (operation', carried') ∧
        (carried'.refused = [] → carried.refused = [] ∧
          OperationMeets lib contentHosts base method operation operation') := by
  cases operation with
  | obj holder =>
      by_cases hmethod : method ∈ httpMethods
      · have hlists : ∀ holder, operationLists method (.obj holder) = [serversOf holder] :=
          fun holder => if_pos hmethod
        have hholder : ∀ server ∈ serversOf holder, SoundServer lib base server := by
          rw [hlists, List.forall_mem_singleton] at hsound
          exact hsound
        rcases resolveList_spec hlib hbase hholder carried with
          ⟨holder', carried', hlist, _, hmeets⟩
        refine ⟨.obj holder', carried', ?_, fun h => ?_⟩
        · rw [resolveOperation, if_pos hmethod, hlist]
          rfl
        · rcases hmeets h with ⟨h₀, hmeets⟩
          refine ⟨h₀, ?_, fun carried => ?_, fun hc => absurd hmethod hc⟩
          · rw [hlists, hlists]
            exact List.Forall₂.cons hmeets.list List.Forall₂.nil
          · rw [resolveOperation, if_pos hmethod, resolveList_stable hmeets.stable]
            rfl
      · have hlists := operationLists_of_not_mem hmethod (.obj holder)
        have hfixed : ∀ carried, resolveOperation lib base true method (.obj holder) carried =
            some (.obj holder, carried) := fun carried => by
          rw [resolveOperation, if_neg hmethod]
        refine ⟨.obj holder, carried, hfixed carried, fun h => ⟨h, ?_, hfixed, fun _ => rfl⟩⟩
        rw [hlists]
        exact List.Forall₂.nil
  | _ => exact ⟨_, carried, rfl, fun h => ⟨h, List.Forall₂.nil, fun _ => rfl, fun _ => rfl⟩⟩

theorem servers_not_method : "servers" ∉ httpMethods := by decide

/-- The operations of a path item are where they were after its own servers. -/
theorem operations_of_sameBut {holder holder' : Members} (h : SameBut holder holder') :
    (holder'.flatMap fun x => operationLists x.1 x.2) =
      holder.flatMap fun x => operationLists x.1 x.2 := by
  rcases h with rfl | ⟨_, servers, _, rfl⟩
  · rfl
  · rw [Json.replaceMember, List.flatMap_map]
    refine List.flatMap_congr fun x _ => ?_
    by_cases hx : x.1 = "servers"
    · rw [if_pos hx, hx, operationLists_of_not_mem servers_not_method,
        operationLists_of_not_mem servers_not_method]
    · rw [if_neg hx]

/-- A path item, before and after. -/
structure PathItemMeets (lib : Stdlib) (contentHosts : List Text) (base : DocumentBase)
    (item item' : Json) : Prop where
  lists : List.Forall₂ (ListMeets lib contentHosts base) (pathItemLists item) (pathItemLists item')
  fixed : ∀ path carried, resolvePathItem lib base true path item' carried = some (item', carried)

theorem resolvePathItem_spec (hlib : lib.Lawful)
    (hbase : base.url = none ∧ base.scheme = none ∨
      ∃ scheme netloc, WebBase lib contentHosts base scheme netloc)
    {item : Json}
    (hsound : ∀ servers ∈ pathItemLists item, ∀ server ∈ servers, SoundServer lib base server)
    (path : String) (carried : Carried) :
    ∃ item' carried', resolvePathItem lib base true path item carried = some (item', carried') ∧
      (carried'.refused = [] →
        carried.refused = [] ∧ PathItemMeets lib contentHosts base item item') := by
  cases item with
  | obj holder =>
      have hown : ∀ server ∈ serversOf holder, SoundServer lib base server :=
        hsound _ List.mem_cons_self
      have hall : ∀ servers ∈ holder.flatMap (fun x => operationLists x.1 x.2),
          ∀ server ∈ servers, SoundServer lib base server :=
        fun servers h => hsound servers (List.mem_cons_of_mem _ h)
      rcases resolveList_spec hlib hbase hown carried with
        ⟨holder₁, carried₁, hlist, hframe, hmeets⟩
      have hsame := operations_of_sameBut hframe
      have hstep : ∀ x ∈ holder₁, ∀ carried, ∃ operation' carried',
          resolveOperation lib base true x.1 x.2 carried = some (operation', carried') ∧
            (carried'.refused = [] → carried.refused = [] ∧
              OperationMeets lib contentHosts base x.1 x.2 operation') := by
        intro x hx carried
        refine resolveOperation_spec hlib hbase (fun servers hservers => hall servers ?_) carried
        rw [← hsame]
        exact List.mem_flatMap.mpr ⟨x, hx, hservers⟩
      rcases eachMember_spec hstep carried₁ with ⟨holder₂, carried₂, heach, hoperations⟩
      refine ⟨.obj holder₂, carried₂, ?_, fun h => ?_⟩
      · rw [resolvePathItem, hlist, Option.bind_some, heach]
        rfl
      · rcases hoperations h with ⟨h₁, hmembers⟩
        rcases hmeets h₁ with ⟨h₀, hmeets⟩
        have hservers : serversOf holder₂ = serversOf holder₁ := by
          have hkept : List.Forall₂ (fun x y => x.1 = y.1 ∧ (x.1 = "servers" → x.2 = y.2))
              holder₁ holder₂ :=
            hmembers.imp fun x y hxy => ⟨hxy.1, fun hx =>
              hxy.2.frame (hx ▸ servers_not_method)⟩
          rw [serversOf, serversOf, get?_of_forall₂ hkept]
        refine ⟨h₀, ?_, fun path carried => ?_⟩
        · refine List.Forall₂.cons (hservers ▸ hmeets.list) ?_
          rw [← hsame]
          refine forall₂_flatMap (fun x y hxy => ?_) hmembers
          rw [← hxy.1]
          exact hxy.2.lists
        · have hstable : ∀ server ∈ serversOf holder₂, Stable lib base server :=
            hservers ▸ hmeets.stable
          have hfixed : ∀ x ∈ holder₂, ∀ carried,
              resolveOperation lib base true x.1 x.2 carried = some (x.2, carried) := by
            intro y hy carried
            rcases exists_of_mem_right hmembers hy with ⟨x, hkey, hxy⟩
            rw [← hkey]
            exact hxy.fixed carried
          rw [resolvePathItem, resolveList_stable hstable, Option.bind_some,
            eachMember_fixed hfixed]
          rfl
  | _ =>
      exact ⟨_, carried, rfl, fun h => ⟨h, List.Forall₂.nil, fun _ _ => rfl⟩⟩

theorem paths_of_sameBut {content content' : Members} (h : SameBut content content') :
    (Json.obj content').get? "paths" = (Json.obj content).get? "paths" := by
  rcases h with rfl | ⟨old, servers, hold, rfl⟩
  · rfl
  · rw [Json.get?_replaceMember hold, if_neg (by decide)]

theorem replaceMember_replaceMember (key : String) (value : Json) (members : Members) :
    Json.replaceMember key value (Json.replaceMember key value members) =
      Json.replaceMember key value members := by
  rw [Json.replaceMember, Json.replaceMember, List.map_map]
  refine List.map_congr_left fun x _ => ?_
  rw [Function.comp_apply]
  by_cases hx : x.1 = key
  · rw [if_pos hx, if_pos rfl]
  · rw [if_neg hx, if_neg hx]

/-- The paths of a document, before and after: its own servers are left, and the lists
of its paths are as they are to be. -/
theorem resolvePaths_spec (hlib : lib.Lawful)
    (hbase : base.url = none ∧ base.scheme = none ∨
      ∃ scheme netloc, WebBase lib contentHosts base scheme netloc)
    {content : Members}
    (hsound : ∀ servers ∈ pathLists ((Json.obj content).get? "paths"), ∀ server ∈ servers,
      SoundServer lib base server) (carried : Carried) :
    ∃ content' carried', resolvePaths lib base true content carried = some (content', carried') ∧
      (carried'.refused = [] → carried.refused = [] ∧ serversOf content' = serversOf content ∧
        List.Forall₂ (ListMeets lib contentHosts base)
          (pathLists ((Json.obj content).get? "paths"))
          (pathLists ((Json.obj content').get? "paths")) ∧
        ∀ carried, resolvePaths lib base true content' carried = some (content', carried)) := by
  rw [resolvePaths]
  split
  · rename_i paths hpaths
    rw [hpaths] at hsound ⊢
    have hstep : ∀ x ∈ paths, ∀ carried, ∃ item' carried',
        resolvePathItem lib base true x.1 x.2 carried = some (item', carried') ∧
          (carried'.refused = [] →
            carried.refused = [] ∧ PathItemMeets lib contentHosts base x.2 item') := by
      intro x hx carried
      refine resolvePathItem_spec hlib hbase (fun servers hservers => hsound servers ?_) x.1 carried
      exact List.mem_flatMap.mpr ⟨x, hx, hservers⟩
    rcases eachMember_spec (Q := fun _ => PathItemMeets lib contentHosts base) hstep carried with
      ⟨paths', carried', heach, hitems⟩
    have hnew : ∀ other, (Json.obj (Json.replaceMember "paths" (.obj paths') content)).get? other =
        if other = "paths" then some (.obj paths') else (Json.obj content).get? other :=
      Json.get?_replaceMember hpaths (.obj paths')
    refine ⟨Json.replaceMember "paths" (.obj paths') content, carried', by rw [heach]; rfl, ?_⟩
    intro h
    rcases hitems h with ⟨h₀, hmembers⟩
    refine ⟨h₀, ?_, ?_, fun carried => ?_⟩
    · rw [serversOf, serversOf, hnew, if_neg (by decide)]
    · rw [hnew, if_pos rfl]
      exact forall₂_flatMap (fun x y hxy => hxy.2.lists) hmembers
    · have hfixed : ∀ x ∈ paths', ∀ carried,
          resolvePathItem lib base true x.1 x.2 carried = some (x.2, carried) := by
        intro y hy carried
        rcases exists_of_mem_right hmembers hy with ⟨x, _, hxy⟩
        exact hxy.fixed y.1 carried
      rw [resolvePaths, hnew, if_pos rfl]
      dsimp only
      rw [eachMember_fixed hfixed, Option.map_some, replaceMember_replaceMember]
  · rename_i hnone
    refine ⟨content, carried, rfl, fun h => ⟨h, rfl, ?_, fun carried => ?_⟩⟩
    · have hempty : pathLists ((Json.obj content).get? "paths") = [] := by
        rw [pathLists]
        exact hnone
      rw [hempty]
      exact List.Forall₂.nil
    · rw [resolvePaths]
      split
      · rename_i paths hpaths
        exact absurd hpaths (hnone paths)
      · rfl

/-- A document of sound servers is as it is to be. -/
theorem resolveRelativeServers_meets (hlib : lib.Lawful)
    (hbase : base.url = none ∧ base.scheme = none ∨
      ∃ scheme netloc, WebBase lib contentHosts base scheme netloc)
    {content : Members}
    (hsound : ∀ servers ∈ serverLists content, ∀ server ∈ servers, SoundServer lib base server) :
    Meets lib contentHosts base content := by
  have hown : ∀ server ∈ serversOf content, SoundServer lib base server :=
    hsound _ List.mem_cons_self
  rcases resolveList_spec hlib hbase hown {} with ⟨content₁, carried₁, hlist, hsame, hmeets⟩
  have hpaths := paths_of_sameBut hsame
  have hrest : ∀ servers ∈ pathLists ((Json.obj content₁).get? "paths"), ∀ server ∈ servers,
      SoundServer lib base server := by
    rw [hpaths]
    exact fun servers h => hsound servers (List.mem_cons_of_mem _ h)
  rcases resolvePaths_spec hlib hbase hrest carried₁ with ⟨content₂, carried₂, hwalk, hdone⟩
  have hrun : resolveRelativeServers lib content base true = conclude content₂ carried₂ := by
    rw [resolveRelativeServers, hlist, Option.bind_some, hwalk, Option.elim_some]
  rw [Meets, hrun]
  cases hrefused : carried₂.refused with
  | cons refusal rest =>
      rw [conclude, hrefused]
      exact True.intro
  | nil =>
      rw [conclude, hrefused]
      rcases hdone hrefused with ⟨h₁, hservers, hlists, hfixed⟩
      rcases hmeets h₁ with ⟨_, hmeets⟩
      refine ⟨List.Forall₂.cons (hservers ▸ hmeets.list) ?_, ?_⟩
      · rw [← hpaths]
        exact hlists
      · have hstable : ∀ server ∈ serversOf content₂, Stable lib base server :=
          hservers ▸ hmeets.stable
        rw [resolveRelativeServers, resolveList_stable hstable, Option.bind_some, hfixed,
          Option.elim_some]
        rfl

end ServerUrls

end Registry

end JenticOne
