/-
Module: OpenCargo.Npm.Registry
Purpose: What a packument makes of the metadata of a stored version (`registry/npm/packument.rs`, `render.rs`): the
  fields of an abbreviated one, and the URL its tarball is served from.
Trusted boundary: none
Main exports: stripToAbbreviated, tarballUrl, rewriteOne
-/
import OpenCargo.Npm.Publish

namespace OpenCargo.Npm

open OpenCargo.Lib (Json valueAt setAt)

/-- `dist.tarball`, where metadata has one that is a text, is replaced. -/
def mapTarball (f : Text → Text) (metadata : Json) : Json :=
  match metadata.get "dist".toList with
  | some (.object dist) =>
      match valueAt "tarball".toList dist with
      | some (.string url) =>
          metadata.insert "dist".toList (.object (setAt "tarball".toList (.string (f url)) dist))
      | _ => metadata
  | _ => metadata

/-- The fields of an abbreviated version. -/
def abbreviatedFields : List Text :=
  ["name", "version", "dependencies", "devDependencies", "peerDependencies", "peerDependenciesMeta",
    "optionalDependencies", "bundleDependencies", "bundledDependencies", "acceptDependencies", "bin",
    "directories", "engines", "dist", "os", "cpu", "libc", "deprecated", "hasInstallScript",
    "funding"].map String.toList

def stripToAbbreviated : Json → Json
  | .object members => .object (members.filter fun entry => abbreviatedFields.contains entry.1)
  | other => other

/-- `str::trim_end_matches('/')`. -/
def trimSlashes (t : Text) : Text := (t.reverse.dropWhile (· = '/')).reverse

/-- Where this server serves a package's tarball from. -/
def tarballUrl (baseUrl repo package filename : Text) : Text :=
  trimSlashes baseUrl ++ "/".toList ++ repo ++ "/".toList ++ package ++ "/-/".toList ++ filename

/-- `dist.tarball` is pointed at this server, under the name its URL ends with. -/
def rewriteOne (metadata : Json) (baseUrl repo package : Text) : Json :=
  mapTarball (fun url => tarballUrl baseUrl repo package (Layout.fileName url)) metadata

end OpenCargo.Npm
