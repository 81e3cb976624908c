import Webpp.Storage.Cache
import Webpp.Views.SchemeHistory

/-!
# `view_manager`

Views are found by name in a list of directories and are kept in an LRU cache of the paths. A cached
view is changed through the pointer to it: the file is read and parsed in place the first time, and
rendering may leave an error in it. As long as the files stay the same, a view from the cache answers
as a new one, but for two things that stay with it: its kind, and the error of a rendering.
-/

namespace Webpp.Views

open Webpp.Storage

/-! ## Files -/

/-- `stl::filesystem::path`, as its text. -/
abbrev Path := List Char

/-- `stl::filesystem::file_type`, as far as it is asked for. -/
inductive FileType where
  | notFound
  | regular
  | directory
  | other
  deriving DecidableEq

/-- What is on the disk. -/
structure FileSystem where
  status : Path → FileType
  /-- What `recursive_directory_iterator` goes over, if the directory can be read. -/
  listing : Path → Option (List Path)
  /-- What `file::get_to` reads. -/
  content : Path → Option (List Char)

def FileSystem.exists (fs : FileSystem) (file : Path) : Bool := fs.status file != .notFound

/-- `path::filename`. -/
def Path.filename (file : Path) : List Char := (file.reverse.takeWhile (· ≠ '/')).reverse

/-- The length of `path::extension`: a dot in front is not one of an extension. -/
def Path.extensionLength (file : Path) : ℕ :=
  let name := Path.filename file
  let behindDot := (name.reverse.takeWhile (· ≠ '.')).length
  if name = ['.', '.'] ∨ name.length ≤ behindDot + 1 then 0 else behindDot + 1

/-- `path::extension`. -/
def Path.extension (file : Path) : List Char :=
  let name := Path.filename file
  name.drop (name.length - Path.extensionLength file)

/-- `path::stem`. -/
def Path.stem (file : Path) : List Char :=
  let name := Path.filename file
  name.take (name.length - Path.extensionLength file)

/-- `path::append` of a text that is not absolute. -/
def Path.append (dir : Path) (text : List Char) : Path :=
  if dir = [] ∨ dir.getLast? = some '/' then dir ++ text else dir ++ '/' :: text

def mustacheExtension : List Char := ['.', 'm', 'u', 's', 't', 'a', 'c', 'h', 'e']

def validExtensions : List (List Char) := [mustacheExtension]

/-- The search of `find_file` in the entries of a directory and of those below it. -/
def findRecursive (fs : FileSystem) (request : List Char) (dir : Path) : Option Path :=
  ((fs.listing dir).getD []).find? fun file =>
    let fileStem := Path.stem file
    (fileStem == request || validExtensions.any fun ext => fileStem == file ++ ext) &&
      fs.status file == .regular

/-- The search of `find_file` for a file with the name, or with the name and an extension. -/
def findIn (fs : FileSystem) (request : List Char) (dir : Path) : Option Path :=
  let file := Path.append dir request
  if fs.exists file then some file else (validExtensions.map (file ++ ·)).find? fs.exists

def findFile (fs : FileSystem) (viewRoots : List Path) (request : List Char) : Option Path :=
  let dirs := viewRoots.filter fun dir => fs.status dir == .directory
  match request with
  | '/' :: _ => if fs.status request = .regular then some request else none
  | '*' :: request => dirs.findSome? (findRecursive fs request)
  | request => dirs.findSome? (findIn fs request)

/-! ## Views -/

inductive ViewKind where
  | mustache
  | file
  deriving DecidableEq

/-- `view_types`: a `file_view` is the text it has. -/
inductive ViewTypes where
  | mustache (view : MustacheView)
  | file (data : List Char)

/-- What goes wrong where the program has no result. -/
inductive ViewFault where
  /-- The pointer to a view that the cache has dropped at once. -/
  | nullView
  | scan (fault : ScanFault)
  | render (fault : RenderFault)
  deriving DecidableEq

namespace ViewTypes

def kind : ViewTypes → ViewKind
  | mustache _ => .mustache
  | file _ => .file

/-- `default_view`. -/
def default : ViewKind → ViewTypes
  | .mustache => .mustache {}
  | .file => .file []

def hasScheme : ViewTypes → Bool
  | mustache view => view.hasScheme
  | file data => !data.isEmpty

def scheme (content : List Char) : ViewTypes → Except ViewFault ViewTypes
  | mustache view => ((view.scheme content).mapError .scan).map .mustache
  | file _ => .ok (.file content)

/-- `render` with data. -/
def render (L : Lambdas) (n : ℕ) (data : Context) :
    ViewTypes → Except ViewFault (List Char × ViewTypes)
  | mustache view =>
      ((view.render L n true data).mapError .render).map fun r => (r.1, .mustache r.2)
  | file text => .ok (text, .file text)

end ViewTypes

instance : Movable ViewTypes := ⟨fun view => .default view.kind⟩

/-! ## The manager -/

structure ViewManager where
  cachedViews : LruStrategy Path ViewTypes
  viewRoots : List Path

/-- What a call of the manager ends with: a text, or the exception of `stl::get`. -/
inductive Reply where
  | text (out : List Char)
  | badVariantAccess
  deriving DecidableEq

/-- A call of `view_to`, on a file that was found. -/
structure Visit where
  kind : ViewKind
  file : Path
  data : Context

def ViewManager.new (cacheLimit : SizeT) (viewRoots : List Path) : ViewManager :=
  ⟨.new cacheLimit, viewRoots⟩

section Manager

variable (fs : FileSystem) (L : Lambdas) (n : ℕ)

/-- The view with its file read, if that had not been done; `none` if it cannot be read. -/
def loaded (file : Path) (view : ViewTypes) : Except ViewFault (Option ViewTypes) :=
  if view.hasScheme then .ok (some view)
  else
    match fs.content file with
    | none => .ok none
    | some content => (view.scheme content).map some

def ViewManager.viewTo (m : ViewManager) (visit : Visit) :
    Except ViewFault (Reply × ViewManager) :=
  let r := m.cachedViews.emplaceGetPtr visit.file (.default visit.kind)
  let m := { m with cachedViews := r.2 }
  match r.1 with
  | none => .error .nullView
  | some cached =>
      if cached.kind ≠ visit.kind then .ok (.badVariantAccess, m)
      else do
        match ← loaded fs visit.file cached with
        | none => return (.text [], m)
        | some view => do
            let out ← view.render L n visit.data
            return (.text out.1,
              { m with cachedViews := m.cachedViews.write visit.file out.2 })

/-- The calls of the manager: `mustache`, `file` and `view`. -/
inductive Request where
  | mustache (name : List Char) (data : Context)
  | file (name : List Char)
  | view (name : List Char) (data : Context)

/-- The call of `view_to` that is made, if the file is found. -/
def Request.visit (viewRoots : List Path) : Request → Option Visit
  | mustache name data =>
      (findFile fs viewRoots name).map fun file => ⟨.mustache, file, data⟩
  | file name => (findFile fs viewRoots name).map fun file => ⟨.file, file, []⟩
  | view name data =>
      (findFile fs viewRoots name).map fun file =>
        if Path.extension file = mustacheExtension then ⟨.mustache, file, data⟩
        else ⟨.file, file, []⟩

def ViewManager.serve (m : ViewManager) (request : Request) :
    Except ViewFault (Reply × ViewManager) :=
  match request.visit fs m.viewRoots with
  | none => .ok (.text [], m)
  | some visit => m.viewTo fs L n visit

/-! ## Rendering without a cache -/

/-- A new view of the file is rendered. -/
def freshText (visit : Visit) : Except ViewFault (List Char) :=
  match fs.content visit.file with
  | none => .ok []
  | some content => do
      let view ← (ViewTypes.default visit.kind).scheme content
      let out ← view.render L n visit.data
      return out.1

/-- A new view of the file has no error before the data is rendered, and has one then. -/
def Visit.Fails (visit : Visit) : Prop :=
  ∃ content view out, fs.content visit.file = some content ∧
    ({} : MustacheView).scheme content = .ok view ∧
      view.render L n true visit.data = .ok out ∧ out.2.errorMsg = some .rendering

/-- The managers that requests lead to, with the calls of `view_to` so far. -/
inductive Served (cacheLimit : SizeT) (viewRoots : List Path) :
    List Visit → ViewManager → Prop where
  | new : Served cacheLimit viewRoots [] (.new cacheLimit viewRoots)
  | missing {visits : List Visit} {m : ViewManager} {request : Request}
      (h : Served cacheLimit viewRoots visits m) (hvisit : request.visit fs viewRoots = none) :
      Served cacheLimit viewRoots visits m
  | found {visits : List Visit} {m m' : ViewManager} {request : Request} {visit : Visit}
      {reply : Reply} (h : Served cacheLimit viewRoots visits m)
      (hvisit : request.visit fs viewRoots = some visit)
      (hserve : m.serve fs L n request = .ok (reply, m')) :
      Served cacheLimit viewRoots (visit :: visits) m'

end Manager

/-! ## What stays in a cached view -/

section Kept

variable (fs : FileSystem) (L : Lambdas) (n : ℕ)

/-- A call on the file has set the error of a rendering. -/
def Failed (visits : List Visit) (file : Path) : Prop :=
  ∃ visit ∈ visits, visit.file = file ∧ visit.Fails fs L n

/-- The view is the new view `w`, but for the error of a rendering. -/
structure Current (visits : List Visit) (file : Path) (w view : MustacheView) : Prop where
  components : view.components = w.components
  errorMsg : view.errorMsg = w.errorMsg ∨
    view.errorMsg = some .rendering ∧ Failed fs L n visits file

/-- The view is one of the file. -/
inductive OfFile (visits : List Visit) (file : Path) : ViewTypes → Prop where
  | mustache {content : List Char} {w view : MustacheView} (hcontent : fs.content file = some content)
      (hscheme : ({} : MustacheView).scheme content = .ok w)
      (hcurrent : Current fs L n visits file w view) : OfFile visits file (.mustache view)
  | file {content : List Char} (hcontent : fs.content file = some content) :
      OfFile visits file (.file content)

/-- What is known of a view that is cached for the file. -/
structure Kept (visits : List Visit) (file : Path) (view : ViewTypes) : Prop where
  kind : ∃ visit ∈ visits, visit.file = file ∧ visit.kind = view.kind
  ofFile : view = .default view.kind ∨ OfFile fs L n visits file view

variable {fs L n} {visits : List Visit} {file : Path} {visit : Visit}

theorem Failed.cons (h : Failed fs L n visits file) : Failed fs L n (visit :: visits) file := by
  obtain ⟨earlier, hmem, hfile, hfails⟩ := h
  exact ⟨earlier, List.mem_cons_of_mem visit hmem, hfile, hfails⟩

theorem Current.cons {w view : MustacheView} (h : Current fs L n visits file w view) :
    Current fs L n (visit :: visits) file w view :=
  ⟨h.components, h.errorMsg.imp_right fun herror => ⟨herror.1, herror.2.cons⟩⟩

theorem OfFile.cons {view : ViewTypes} (h : OfFile fs L n visits file view) :
    OfFile fs L n (visit :: visits) file view := by
  cases h with
  | mustache hcontent hscheme hcurrent => exact .mustache hcontent hscheme hcurrent.cons
  | file hcontent => exact .file hcontent

theorem Kept.cons {view : ViewTypes} (h : Kept fs L n visits file view) :
    Kept fs L n (visit :: visits) file view := by
  obtain ⟨earlier, hmem, hearlier⟩ := h.kind
  exact ⟨⟨earlier, List.mem_cons_of_mem visit hmem, hearlier⟩, h.ofFile.imp_right OfFile.cons⟩

@[simp] theorem kind_default (kind : ViewKind) : (ViewTypes.default kind).kind = kind := by
  cases kind <;> rfl

theorem kept_default : Kept fs L n (visit :: visits) visit.file (.default visit.kind) :=
  ⟨⟨visit, List.mem_cons_self, rfl, (kind_default visit.kind).symm⟩,
    .inl (congrArg _ (kind_default visit.kind).symm)⟩

/-! ## One call -/

/-- A view without components is parsed as a new one, and keeps its error. -/
theorem scheme_of_components_nil {content : List Char} {w : MustacheView}
    (h : ({} : MustacheView).scheme content = .ok w) (error : Option ViewError) :
    (⟨[], error⟩ : MustacheView).scheme content = .ok ⟨w.components, w.errorMsg.or error⟩ := by
  rw [MustacheView.scheme, MustacheView.parse] at h ⊢
  dsimp only at h ⊢
  cases hloop : Loop.loop (scanStep content) .exhausted (content.length + 1)
      (⟨0, {}, ({} : DelimiterSet).isDefault, [], [], []⟩ : ScanState) with
  | error fault =>
      rw [hloop] at h
      cases h
  | ok r =>
      rw [hloop] at h
      cases h
      obtain ⟨s, e⟩ := r
      cases e with
      | some e => rfl
      | none =>
          change Except.ok (MustacheView.mk (walkSections (s.tree content)).1
            (((walkSections (s.tree content)).2.map ViewError.scheme).or error)) =
              Except.ok (MustacheView.mk (walkSections (s.tree content)).1
                ((((walkSections (s.tree content)).2.map ViewError.scheme).or none).or error))
          rw [Option.or_none]

theorem scheme_mustache {view w : MustacheView} {content : List Char}
    (h : view.scheme content = .ok w) :
    (ViewTypes.mustache view).scheme content = .ok (.mustache w) := by
  rw [ViewTypes.scheme, h]
  rfl

theorem render_leaves {view : MustacheView} {data : Context} {out : List Char × MustacheView}
    (h : view.render L n true data = .ok out) :
    out.2.components = view.components ∧
      (out.2.errorMsg = view.errorMsg ∨ out.2.errorMsg = some .rendering) := by
  rw [MustacheView.render] at h
  split at h
  · cases h
    exact ⟨rfl, .inl rfl⟩
  · cases hwalk : walkChildren L (renderTemplate L n) data ⟨[], {}, !view.isValid⟩
        view.components with
    | error fault =>
        rw [hwalk] at h
        cases h
    | ok s =>
        rw [hwalk] at h
        cases h
        refine ⟨rfl, ?_⟩
        dsimp only
        cases view.errorMsg with
        | some e => exact .inl rfl
        | none =>
            rw [Option.none_or]
            split
            · exact .inr rfl
            · exact .inl rfl

theorem loaded_kept {view : ViewTypes}
    (h : view = .default view.kind ∨ OfFile fs L n visits file view) :
    fs.content file = none ∧ loaded fs file view = .ok none ∨
      ∃ view', loaded fs file view = .ok (some view') ∧ view'.kind = view.kind ∧
        OfFile fs L n visits file view' := by
  rcases h with hnew | hread
  · cases hcontent : fs.content file with
    | none =>
        left
        refine ⟨rfl, ?_⟩
        rw [hnew, loaded, hcontent]
        cases view.kind <;> rfl
    | some content =>
        right
        obtain ⟨w, hw⟩ := exists_scheme content
        rw [hnew, loaded, hcontent]
        cases view.kind with
        | mustache =>
            refine ⟨.mustache w, ?_, rfl, .mustache hcontent hw ⟨rfl, .inl rfl⟩⟩
            change Except.map some ((ViewTypes.mustache {}).scheme content) = _
            rw [scheme_mustache hw]
            rfl
        | file => exact ⟨.file content, rfl, rfl, .file hcontent⟩
  · right
    cases hscheme : view.hasScheme with
    | true => exact ⟨view, by rw [loaded, hscheme, if_pos rfl], rfl, hread⟩
    | false =>
        cases hread with
        | file hcontent =>
            refine ⟨_, ?_, rfl, .file hcontent⟩
            rw [loaded, hscheme, hcontent]
            rfl
        | mustache hcontent hw hcurrent =>
            rename_i content w view
            have hnil : view.components = [] := by
              have hempty : (!view.components.isEmpty) = false := hscheme
              rwa [Bool.not_eq_false', List.isEmpty_iff] at hempty
            have hview : view = ⟨[], view.errorMsg⟩ := by rw [← hnil]
            refine ⟨.mustache ⟨w.components, w.errorMsg.or view.errorMsg⟩, ?_, rfl,
              .mustache hcontent hw ⟨rfl, ?_⟩⟩
            · rw [loaded, hscheme, hcontent]
              change Except.map some ((ViewTypes.mustache view).scheme content) = _
              rw [hview, scheme_mustache (scheme_of_components_nil hw _)]
              rfl
            · rcases hcurrent.errorMsg with heq | ⟨hrendering, hfailed⟩
              · left
                rw [heq]
                exact Option.or_self
              · rw [hrendering]
                cases w.errorMsg with
                | none => exact .inr ⟨rfl, hfailed⟩
                | some e => exact .inl rfl

theorem render_ofFile {view : ViewTypes} (h : OfFile fs L n visits visit.file view)
    (hkind : view.kind = visit.kind) :
    ((view.render L n visit.data).map Prod.fst = freshText fs L n visit ∧
        ∀ out, view.render L n visit.data = .ok out →
          out.2.kind = view.kind ∧ OfFile fs L n (visit :: visits) visit.file out.2) ∨
      view.render L n visit.data = .ok ([], view) ∧ Failed fs L n visits visit.file := by
  cases h with
  | file hcontent =>
      rename_i content
      left
      have hkind' : visit.kind = .file := hkind.symm
      constructor
      · rw [freshText, hcontent, hkind']
        rfl
      · rintro out ⟨⟩
        exact ⟨rfl, .file hcontent⟩
  | mustache hcontent hw hcurrent =>
      rename_i content w view
      have hkind' : visit.kind = .mustache := hkind.symm
      rcases hcurrent.errorMsg with herror | ⟨hrendering, hfailed⟩
      · left
        have hview : view = w := by
          cases view
          cases w
          exact congrArg₂ MustacheView.mk hcurrent.components herror
        subst hview
        constructor
        · rw [freshText, hcontent, hkind']
          change _ = ((ViewTypes.mustache {}).scheme content >>= _)
          rw [scheme_mustache hw]
          change Except.map Prod.fst (ViewTypes.render L n visit.data (.mustache view)) =
            (ViewTypes.render L n visit.data (.mustache view) >>= fun out => pure out.1)
          cases ViewTypes.render L n visit.data (.mustache view) <;> rfl
        · intro out hout
          rw [ViewTypes.render] at hout
          cases hrender : view.render L n true visit.data with
          | error fault =>
              rw [hrender] at hout
              cases hout
          | ok r =>
              rw [hrender] at hout
              cases hout
              obtain ⟨hcomps, hleft⟩ := render_leaves hrender
              refine ⟨rfl, .mustache hcontent hw ⟨hcomps, hleft.imp_right fun hrendering => ?_⟩⟩
              exact ⟨hrendering, visit, List.mem_cons_self, rfl, content, view, r, hcontent, hw,
                hrender, hrendering⟩
      · right
        refine ⟨?_, hfailed⟩
        have hinvalid : view.isValid = false := by
          rw [MustacheView.isValid, hrendering]
          rfl
        rw [ViewTypes.render, MustacheView.render, hinvalid]
        rfl

/-! ## All calls -/

variable (fs L n) in
/-- The answer to a call is that of a new view, or an earlier call on the file has left something
in the view: its kind, or the error of a rendering. -/
def Answers (visits : List Visit) (visit : Visit) (reply : Except ViewFault Reply) : Prop :=
  reply = (freshText fs L n visit).map .text ∨
    (reply = .ok .badVariantAccess ∧
      ∃ earlier ∈ visits, earlier.file = visit.file ∧ earlier.kind ≠ visit.kind) ∨
    (reply = .ok (.text []) ∧ Failed fs L n visits visit.file)

variable (fs L n) in
/-- What every manager that calls lead to satisfies. -/
structure ViewManager.Sound (cacheLimit : SizeT) (viewRoots : List Path) (visits : List Visit)
    (m : ViewManager) : Prop where
  viewRoots : m.viewRoots = viewRoots
  maxSize : m.cachedViews.maxSize = cacheLimit
  kept : m.cachedViews.Entries (Kept fs L n visits)

variable {cacheLimit : SizeT} {viewRoots : List Path} {m : ViewManager}

/-- `view_to` answers, and keeps what is known of the cached views. -/
theorem viewTo_sound (hlimit : 0 < cacheLimit) (h : m.Sound fs L n cacheLimit viewRoots visits)
    (visit : Visit) :
    Answers fs L n visits visit ((m.viewTo fs L n visit).map Prod.fst) ∧
      ∀ r, m.viewTo fs L n visit = .ok r →
        r.2.Sound fs L n cacheLimit viewRoots (visit :: visits) := by
  let P : Path → ViewTypes → Prop := fun file view =>
    Kept fs L n visits file view ∨ file = visit.file ∧ view = .default visit.kind
  have hentries : m.cachedViews.Entries P := h.kept.mono fun file view hkept => .inl hkept
  have hmax : 0 < m.cachedViews.maxSize := by
    rw [h.maxSize]
    exact hlimit
  obtain ⟨hkept, cached, hcached, hview, tick, hfind⟩ :=
    hentries.emplaceGetPtr hmax (.inr ⟨rfl, rfl⟩ : P visit.file (.default visit.kind))
  have hcache := LruStrategy.emplaceGetPtr_maxSize m.cachedViews visit.file (.default visit.kind)
  generalize hr : m.cachedViews.emplaceGetPtr visit.file (.default visit.kind) = r at *
  have hsound : (⟨r.2, m.viewRoots⟩ : ViewManager).Sound fs L n cacheLimit viewRoots
      (visit :: visits) := by
    refine ⟨h.viewRoots, hcache.trans h.maxSize, hkept.mono ?_⟩
    rintro file view (hkept | ⟨rfl, rfl⟩)
    · exact hkept.cons
    · exact kept_default
  rw [ViewManager.viewTo, hr]
  dsimp only
  rw [hcached]
  dsimp only
  by_cases hkind : cached.kind = visit.kind
  · rw [if_neg (not_not.mpr hkind)]
    have hnew : cached = .default cached.kind ∨ OfFile fs L n visits visit.file cached := by
      rcases hview with hkept | ⟨-, hdefault⟩
      · exact hkept.ofFile
      · rw [hkind]
        exact .inl hdefault
    rcases loaded_kept hnew with ⟨hcontent, hloaded⟩ | ⟨view, hloaded, hsame, hread⟩
    · rw [hloaded]
      refine ⟨.inl ?_, ?_⟩
      · rw [freshText, hcontent]
        rfl
      · rintro r ⟨⟩
        exact hsound
    · rw [hloaded]
      have hkind' : view.kind = visit.kind := hsame.trans hkind
      have hwritten : ∀ view', view'.kind = view.kind →
          OfFile fs L n (visit :: visits) visit.file view' →
          (⟨r.2.write visit.file view', m.viewRoots⟩ : ViewManager).Sound fs L n cacheLimit
            viewRoots (visit :: visits) := by
        intro view' hview' hread'
        refine ⟨hsound.viewRoots, hsound.maxSize, hsound.kept.write ⟨?_, .inr hread'⟩⟩
        exact ⟨visit, List.mem_cons_self, rfl, (hview'.trans hkind').symm⟩
      rcases render_ofFile hread hkind' with ⟨hfresh, hleaves⟩ | ⟨hrender, hfailed⟩
      · cases hrender : view.render L n visit.data with
        | error fault =>
            rw [hrender] at hfresh
            refine ⟨.inl ?_, ?_⟩
            · rw [← hfresh]
              simp only [bind, Except.bind, hrender, Except.map]
            · intro r hr
              simp only [bind, Except.bind, hrender] at hr
              cases hr
        | ok out =>
            rw [hrender] at hfresh
            obtain ⟨hout, hread'⟩ := hleaves out hrender
            refine ⟨.inl ?_, ?_⟩
            · rw [← hfresh]
              simp only [bind, Except.bind, hrender, Except.map, pure, Except.pure]
            · intro r hr
              simp only [bind, Except.bind, hrender, pure, Except.pure] at hr
              cases hr
              exact hwritten out.2 hout hread'
      · refine ⟨.inr (.inr ⟨?_, hfailed⟩), ?_⟩
        · simp only [bind, Except.bind, hrender, Except.map, pure, Except.pure]
        · intro r hr
          simp only [bind, Except.bind, hrender, pure, Except.pure] at hr
          cases hr
          exact hwritten view rfl hread.cons
  · rw [if_pos hkind]
    constructor
    · right
      left
      refine ⟨rfl, ?_⟩
      rcases hview with hkept | ⟨-, hdefault⟩
      · obtain ⟨earlier, hmem, hfile, hearlier⟩ := hkept.kind
        exact ⟨earlier, hmem, hfile, hearlier ▸ hkind⟩
      · rw [hdefault, kind_default] at hkind
        exact absurd rfl hkind
    · rintro r ⟨⟩
      exact hsound

theorem Served.sound (hlimit : 0 < cacheLimit)
    (h : Served fs L n cacheLimit viewRoots visits m) :
    m.Sound fs L n cacheLimit viewRoots visits := by
  induction h with
  | new => exact ⟨rfl, rfl, LruStrategy.entries_new cacheLimit⟩
  | missing h hvisit ih => exact ih
  | found h hvisit hserve ih =>
      rename_i visits m m' request visit reply
      rw [ViewManager.serve, ih.viewRoots, hvisit] at hserve
      exact (viewTo_sound hlimit ih visit).2 _ hserve

end Kept

end Webpp.Views
