import AppManager.Lib.Bytes
import AppManager.Lib.Libc
import AppManager.Lib.Walk
import AppManager.Lib.Hex
import AppManager.Lib.Decimal
import AppManager.Lib.Lines
import AppManager.Lib.Tour
import AppManager.Lib.Json
import AppManager.Lib.Members
import AppManager.Lib.Outcome
import AppManager.Lib.Reading
import AppManager.Lib.Search
import AppManager.Lib.Tape
import AppManager.Lib.Moves
import AppManager.Lib.Bisect
import AppManager.Lib.Unescape
import AppManager.Lib.Fuel
import AppManager.Lib.Calls
import AppManager.Lib.Trim
import AppManager.Lib.History
import AppManager.Lib.Custody
import AppManager.Mustach.Process
import AppManager.Mustach.Template
import AppManager.Mustach.Render
import AppManager.Mustach.Refine
import AppManager.Mustach.Meaning
import AppManager.Mustach.Ending
import AppManager.Utils.DomainSpec
import AppManager.Utils.DomainMap
import AppManager.Utils.DomainText
import AppManager.Utils.DomainBuffer
import AppManager.Utils.PathEntry
import AppManager.Utils.PathName
import AppManager.Utils.PathForeach
import AppManager.Utils.PathVisits
import AppManager.Utils.PathLookup
import AppManager.Utils.PathRelative
import AppManager.Utils.PathAdding
import AppManager.Utils.PathBuffer
import AppManager.Utils.PathDestroy
import AppManager.Utils.PathTours
import AppManager.Utils.PathLinks
import AppManager.Utils.PathPrepend
import AppManager.Utils.PathHistory
import AppManager.Utils.PathVars
import AppManager.Utils.PathOrder
import AppManager.Utils.PathReads
import AppManager.Utils.PathAbsolute
import AppManager.Utils.PathNaming
import AppManager.Utils.PathSlashes
import AppManager.Utils.PathType
import AppManager.Utils.Permset
import AppManager.Utils.PermsetMap
import AppManager.Utils.PermsetArray
import AppManager.Cert.CommonCert
import AppManager.Cert.CertChain
import AppManager.Cert.SortCerts
import AppManager.Cert.CheckSignature
import AppManager.Cert.SignatureName
import AppManager.Cert.SignatureMake
import AppManager.Cert.SignedDigest
import AppManager.Cert.Digest
import AppManager.Cert.DigestText
import AppManager.Cert.DigestCreate
import AppManager.Cert.DigestCheck
import AppManager.Cert.DigestDescriptors
import AppManager.Cert.DigestRoundTrip
import AppManager.Cert.DigestOrder
import AppManager.Cert.DigestNames
import AppManager.Afmpkg.Proto
import AppManager.Afmpkg.Request
import AppManager.Afmpkg.RequestSteps
import AppManager.Afmpkg.RequestGrammar
import AppManager.Afmpkg.Receive
import AppManager.Afmpkg.Process
import AppManager.Afmpkg.Serve
import AppManager.Afmpkg.Reply
import AppManager.Afmpkg.ClientReply
import AppManager.Afmpkg.Transactions
import AppManager.Afmpkg.Connections
import AppManager.Afmpkg.Client
import AppManager.Afmpkg.ClientDraft
import AppManager.Afmpkg.ClientGrowth
import AppManager.Afmpkg.ClientLoss
import AppManager.Afmpkg.Message
import AppManager.Afmpkg.RoundTrip
import AppManager.Lib.Files
import AppManager.Units.UnitDesc
import AppManager.Units.UnitOper
import AppManager.Units.UnitProcess
import AppManager.Units.UnitSplit
import AppManager.Units.UnitBatch
import AppManager.Units.NormalizeUnit
import AppManager.Units.NormalizeInPlace
import AppManager.Units.DedupSlashes
import AppManager.Units.ManageAfid
import AppManager.Units.AfidLines
import AppManager.Units.AfidRuns
import AppManager.Binding.UnitContent
import AppManager.Binding.JoinedLines
import AppManager.Binding.LineFields
import AppManager.Lib.Visit
import AppManager.Lib.Dialog
import AppManager.Rpm.Records
import AppManager.Rpm.Numbering
import AppManager.Rpm.Sending
import AppManager.Rpm.Sets
import AppManager.Rpm.Delivery
import AppManager.Rpm.Transaction
import AppManager.Units.ApplyMustach
import AppManager.Units.MustachKeys
import AppManager.Units.MustachFind
import AppManager.Units.Explore
import AppManager.Units.Instance
import AppManager.Units.LogicalLines
import AppManager.Units.DroppedLines
import AppManager.Units.FreeAfid
import AppManager.Units.PackInPlace
import AppManager.Units.PackedLines
import AppManager.Binding.ValueRoundTrip
import AppManager.Binding.UnitLines
import AppManager.Binding.CropInPlace
import AppManager.Binding.TwoReaders
import AppManager.Binding.FieldRoundTrip
import AppManager.Binding.DecodeInPlace
import AppManager.Binding.SharedValues
import AppManager.Binding.Privacy
import AppManager.Binding.Udb
import AppManager.Binding.Urun
import AppManager.Binding.Auth
import AppManager.Binding.AuthMeaning
import AppManager.Binding.Access
import AppManager.Binding.AccessControl
import AppManager.Install.State
import AppManager.Install.FileProperties
import AppManager.Install.Metadata
import AppManager.Install.Process
import AppManager.Install.Stages
import AppManager.Install.Installing
import AppManager.Install.ContentLookup
import AppManager.Install.PackagePath
import AppManager.Install.PackageRoots
import AppManager.Install.Sessions
import AppManager.Install.Std
import AppManager.Install.Tags
import AppManager.Install.Partition
import AppManager.Install.TagPaths
import AppManager.Install.InstallDir
import AppManager.Install.Redpak
import AppManager.Install.Permissions
import AppManager.Install.Propagation
import AppManager.Install.ManifestTypes
import AppManager.Install.ExplicitOrder
import AppManager.Install.Typing
import AppManager.Install.Fitting
import AppManager.Install.WholePaths
import AppManager.Install.AskedPaths
import AppManager.Install.PathBounds
import AppManager.Install.Manifest
import AppManager.Install.ManifestForms
import AppManager.Install.ManifestNormal
import AppManager.Install.ManifestNulls
import AppManager.Wgtpkg.Subpath
import AppManager.Wgtpkg.Files
import AppManager.Wgtpkg.Zip
import AppManager.Wgtpkg.WhatSignature
import AppManager.Wgtpkg.Signatures
import AppManager.Wgtpkg.ZipSize
import AppManager.Wgtpkg.Locales
import AppManager.Setup.PutPath
import AppManager.Setup.SearchEntry
