import OutlineMarkup.Grammar

/-!
# Shipped grammars

The grammars that come with the library: `any` allows every tag and attribute, `html` the tags of
HTML with every attribute, and `html5` the tags of HTML5 with the attributes of the standard.
-/

namespace OutlineMarkup

namespace Grammar

def anyLines : List String := ["<*> *"]

def htmlLines : List String :=
  ["<!doctype>- *", "<!DOCTYPE>- *", "<a>+ *", "<abbr> *", "<acronym> *", "<address> *",
   "<applet> *", "<area> *", "<article> *", "<aside> *", "<audio> *", "<b> *", "<base> *",
   "<basefont> *", "<bdi> *", "<bdo> *", "<big> *", "<blockquote> *", "<body> *", "<br> *",
   "<button> *", "<canvas>+ *", "<caption> *", "<center> *", "<cite> *", "<code> *", "<col> *",
   "<colgroup> *", "<command> *", "<datalist> *", "<dd> *", "<del> *", "<details> *", "<dfn> *",
   "<div>+ *", "<dl> *", "<dt> *", "<em> *", "<embed> *", "<fieldset> *", "<figcaption> *",
   "<figure> *", "<font> *", "<footer> *", "<form> *", "<frame> *", "<frameset> *", "<h1> *",
   "<h2> *", "<h3> *", "<h4> *", "<h5> *", "<h6> *", "<head> *", "<header> *", "<hgroup> *",
   "<hr> *", "<html> *", "<i> *", "<iframe>+ *", "<img> *", "<input> *", "<ins> *", "<kbd> *",
   "<keygen> *", "<label> *", "<legend> *", "<li> *", "<link> *", "<map> *", "<mark> *", "<menu> *",
   "<meta> *", "<meter> *", "<nav> *", "<noscript> *", "<object> *", "<ol> *", "<optgroup> *",
   "<option> *", "<output> *", "<p> *", "<param> *", "<pre> *", "<progress> *", "<q> *", "<rp> *",
   "<rt> *", "<ruby> *", "<s> *", "<samp> *", "<script>+ *", "<section> *", "<select> *",
   "<small> *", "<source> *", "<span> *", "<strike> *", "<strong> *", "<style> *", "<sub> *",
   "<summary> *", "<sup> *", "<svg> *", "<table> *", "<tbody> *", "<td> *", "<textarea>+ *",
   "<tfoot> *", "<th> *", "<thead> *", "<time> *", "<title> *", "<tr> *", "<track> *", "<tt> *",
   "<u> *", "<ul>+ *", "<var> *", "<video> *", "<wbr> *"]

def html5Lines : List String :=
  ["<!doctype>-\t*", "<!DOCTYPE>- *",
   "<.>\taccesskey, class, contenteditable, contextmenu, dir, draggable, dropzone, hidden, id, lang, spellcheck, style, tabindex, title",
   "\t<.>\tonblur, onchange, oncontextmenu, onfocus, onformchange, onforminput, oninput, oninvalid, onselect, onsubmit, \\",
   "\t\tonkeydown, onkeypress, onkeyup, \\",
   "\t\tonclick, ondblclick, ondrag, ondragend, ondragenter, ondragleave, ondragover, ondragstart, ondrop, onmousedown, \\",
   "\t\tonmousemove, onmouseout, onmouseover, onmouseup, onmousewheel, onscroll, \\",
   "\t\tonabort, oncanplay, oncanplaythrough, ondurationchange, onemptied, onended, onerror, onloadeddata, onloadedmetadata, \\",
   "\t\tonloadstart, onpause, onplay, onplaying, onprogress, onratechange, \\",
   "\t\tonreadystatechange, onseeked, onseeking, onstalled, onsuspend, ontimeupdate, onvolumechange, onwaiting",
   "\t\t<.> media, type", "\t\t\t<.>\thref, hreflang, rel, target", "\t\t\t\t<a>+",
   "\t\t\t\t<area>\talt, coords, shape", "\t\t\t\t<link>\tsizes", "\t\t\t<source>\tsrc",
   "\t\t\t<style>\t\tscoped", "\t\t<abbr>", "\t\t<address>", "\t\t<article>", "\t\t<aside>",
   "\t\t<.>\tautoplay, controls, loop, preload, src", "\t\t\t<audio>",
   "\t\t\t<video>\t\tmuted, poster", "\t\t<b>", "\t\t<bdi>", "\t\t<bdo>\t\t\tdir",
   "\t\t<blockquote>\tcite",
   "\t\t<body>\tonafterprint, onbeforeprtint, onbeforeunload, onerror, onhaschange, onload, onmessage, onoffline, ononline, \\",
   "\t\t\t\tonpagehide, onpageshow, onpopstate, onredo, onresize, onstorage, onundo, onunload",
   "\t\t<br>", "\t\t<.>\tdisabled, form, name", "\t\t\t<.>\tautofocus",
   "\t\t\t\t<keygen>\t\tchallenge, keytype", "\t\t\t\t<select>\t\tmultiple, size",
   "\t\t\t\t<.>\tformaction, formenctype, formmethod, formnovalidate, formtarget, type, value",
   "\t\t\t\t\t<button>",
   "\t\t\t\t\t<input>\t\taccept, alt, autocomplete, checked, list, multiple, pattern, size, step",
   "\t\t\t\t<.>\tmaxlength, placeholder, readonly, required", "\t\t\t\t\t<input>",
   "\t\t\t\t\t<textarea>+\tcols, rows, wrap", "\t\t\t<fieldset>", "\t\t<.>\theight, width",
   "\t\t\t<canvas>+", "\t\t\t<.>\tsrc", "\t\t\t\t<embed>\t\ttype",
   "\t\t\t\t<iframe>+\tname, sandbox, seamless, srcdoc",
   "\t\t\t\t<img>\t\talt, crossorigin, ismap, usemap", "\t\t\t\t<input>",
   "\t\t\t<object>\tdata, form, name, type, usemap", "\t\t\t<video>", "\t\t<caption>", "\t\t<cite>",
   "\t\t<code>", "\t\t<.>\tspan", "\t\t\t<col>", "\t\t\t<colgroup>", "\t\t<.>\tdisabled, label",
   "\t\t\t<command>\tchecked, icon, radiogroup, type", "\t\t\t<optgroup>",
   "\t\t\t<option>\tselected, value", "\t\t<datalist>", "\t\t<dd>", "\t\t<.>\tcite",
   "\t\t\t<.>\tdatetime", "\t\t\t\t<del>", "\t\t\t\t<ins>", "\t\t\t<q>", "\t\t<details>\topen",
   "\t\t<dfn>", "\t\t<div>+", "\t\t<dl>", "\t\t<dt>", "\t\t<em>", "\t\t<figcaption>",
   "\t\t<figure>", "\t\t<footer>",
   "\t\t<form>\t\taccept-charset, action, autocomplete, enctype, method, name, novalidate, target",
   "\t\t<h1>", "\t\t<h2>", "\t\t<h3>", "\t\t<h4>", "\t\t<h5>", "\t\t<h6>", "\t\t<header>",
   "\t\t<hgroup>", "\t\t<hr>", "\t\t<i>", "\t\t<.>\tmax, min", "\t\t\t<input>",
   "\t\t\t<meter>\tform, high, low, optimum, value", "\t\t<kbd>", "\t\t<.>\tfor, form",
   "\t\t\t<label>", "\t\t\t<output>\tname", "\t\t<legend>", "\t\t<li>\t\tvalue",
   "\t\t<map>\t\tname", "\t\t<mark>", "\t\t<menu>\t\tlabel, type", "\t\t<nav>",
   "\t\t<ol>\t\treversed, start, type", "\t\t<p>", "\t\t<param>\t\tname, value", "\t\t<pre>",
   "\t\t<progress>\tmax, value", "\t\t<rp>", "\t\t<rt>", "\t\t<ruby>", "\t\t<s>", "\t\t<samp>",
   "\t\t<script>+\tasync, charset, defer, src, type", "\t\t<section>", "\t\t<small>", "\t\t<span>",
   "\t\t<strong>", "\t\t<sub>", "\t\t<summary>", "\t\t<sup>", "\t\t<table>\t\tborder",
   "\t\t<tbody>", "\t\t<.>\tcolspan, headers, rowspan", "\t\t\t<td>", "\t\t\t<th>\tscope",
   "\t\t<tfoot>", "\t\t<thead>", "\t\t<time>\t\tdatetime, pubdate", "\t\t<tr>",
   "\t\t<track>\t\tdefault, kind, label, src, srclang", "\t\t<u>", "\t\t<ul>+", "\t\t<var>",
   "\t\t<wbr>", "\t<base>\thref, target", "\t<head>", "\t<html>\tmanifest",
   "\t<meta>\tcharset, content, http-equiv, name", "\t<noscript>", "\t<title>"]

def shipped? (name : Text) : Option Text :=
  let join (lines : List String) : Text := lines.flatMap fun l => l.toList ++ ['\n']
  if name == "any" then some (join anyLines)
  else if name == "html" then some (join htmlLines)
  else if name == "html5" then some (join html5Lines)
  else none

def load (name : Text) : Except Fault TagTable :=
  match shipped? name with
  | some source => read source
  | none => .error .missingFile

end Grammar
end OutlineMarkup
